import LatticeSignature.Hint
import LatticeSignature.Proofs.PolyVec
import Mathlib.Algebra.BigOperators.Fin
import Mathlib.Data.List.Sort

/-!
# The grammar of the hint section

* `Hint.Canonical`: counts that do not fall and do not exceed 75, positions that rise within each
  row, zeros behind the last position.
* `Hint.listed`: the hint that a section lists.
* **`Hint.decode?_eq_some_iff`**: exactly the canonical sections decode, to what they list.
* **`Hint.decode?_encode`**: the section of a hint with at most 75 ones decodes to that hint.
* **`Hint.encode_of_decode?`**: a section that decodes is the section of its hint.
* `PolyVec.total_eq_card`, `PolyVec.weight_eq_card`: the total of a hint is the number of its ones, and
  its weight the number of its nonzero coefficients.
-/

namespace LatticeSignature

namespace Hint

/-! ## The grammar -/

/-- The bounds of the rows in a list of positions, the first of which is given. -/
def bound (first : ℕ) (counts : Bytes) (i : ℕ) : ℕ := (first :: counts.map UInt8.toNat).getD i 0

/-- The number of positions before row `i`: none before row 0, and what the counts say after that. -/
def start (b : Bytes) (i : ℕ) : ℕ := bound 0 (b.drop 75) i

/-- What lies between two places of a byte string. -/
def between (b : Bytes) (first last : ℕ) : Bytes := (b.drop first).take (last - first)

/-- The positions listed for row `i`. -/
def row (b : Bytes) (i : ℕ) : Bytes := between b (start b i) (start b (i + 1))

/-- **The canonical form of a hint section.** -/
structure Canonical (b : Bytes) : Prop where
  length_eq : b.length = 83
  start_le : ∀ i < 8, start b i ≤ start b (i + 1)
  start_le_max : ∀ i < 8, start b (i + 1) ≤ 75
  pairwise_row : ∀ i < 8, (row b i).Pairwise (· < ·)
  padding : ∀ k, start b 8 ≤ k → k < 75 → b[k]? = some 0

/-- The hint that a section lists: ones at the positions of each row, zeros elsewhere. -/
def listed (b : Bytes) : PolyVec .plain 8 := .ofFn fun i => indicator (row b i)

/-! ## Decoding -/

@[simp]
theorem bound_zero (first : ℕ) (counts : Bytes) : bound first counts 0 = first := rfl

@[simp]
theorem bound_succ (first : ℕ) (c : UInt8) (counts : Bytes) (i : ℕ) :
    bound first (c :: counts) (i + 1) = bound c.toNat counts i := rfl

theorem splitRows_eq_some_iff {b rest left : Bytes} {rows : List Bytes} {first : ℕ} {counts : Bytes}
    (hrest : rest = b.drop first) :
    splitRows first counts rest = some (rows, left) ↔
      (∀ i < counts.length, bound first counts i ≤ bound first counts (i + 1) ∧
        bound first counts (i + 1) ≤ 75 ∧
        (between b (bound first counts i) (bound first counts (i + 1))).Pairwise (· < ·)) ∧
      rows = (List.range counts.length).map (fun i =>
        between b (bound first counts i) (bound first counts (i + 1))) ∧
      left = b.drop (bound first counts counts.length) := by
  subst hrest
  induction counts generalizing first rows left with
  | nil => simp [splitRows, eq_comm]
  | cons c counts ih =>
    rw [splitRows, List.length_cons, List.range_succ_eq_map, List.map_cons, List.map_map,
      Nat.forall_lt_succ_left]
    have hrow : (b.drop first).take (c.toNat - first) = between b first c.toNat := rfl
    simp only [Function.comp_def, bound_zero, bound_succ, Nat.succ_eq_add_one, Nat.zero_add, hrow]
    by_cases hc : first ≤ c.toNat ∧ c.toNat ≤ 75 ∧ (between b first c.toNat).Pairwise (· < ·)
    · have hdrop : (b.drop first).drop (c.toNat - first) = b.drop c.toNat := by
        rw [List.drop_drop, Nat.add_sub_cancel' hc.1]
      rw [if_pos hc, hdrop, Option.map_eq_some_iff]
      constructor
      · rintro ⟨⟨rows', left'⟩, h, heq⟩
        obtain ⟨rfl, rfl⟩ := Prod.mk.inj heq
        obtain ⟨h1, rfl, rfl⟩ := ih.1 h
        exact ⟨⟨hc, h1⟩, rfl, rfl⟩
      · rintro ⟨⟨-, h1⟩, rfl, rfl⟩
        exact ⟨_, ih.2 ⟨h1, rfl, rfl⟩, rfl⟩
    · rw [if_neg hc]
      exact ⟨fun h => absurd h (by simp), fun h => absurd h.1.1 hc⟩

theorem between_take {b : Bytes} {first last : ℕ} (h : last ≤ 75) :
    between (b.take 75) first last = between b first last := by
  rw [between, between, List.drop_take, List.take_take, Nat.min_eq_left (by omega)]

theorem all_zero_iff {b : Bytes} (hlen : b.length = 83) (n : ℕ) :
    ((b.take 75).drop n).all (· == 0) = true ↔ ∀ k, n ≤ k → k < 75 → b[k]? = some 0 := by
  rw [List.all_eq_true]
  constructor
  · intro h k hk hk'
    have hmem : b[k] ∈ (b.take 75).drop n :=
      List.mem_drop_iff_getElem.2 ⟨k - n, by simp; omega, by simp [Nat.add_sub_cancel' hk]⟩
    rw [List.getElem?_eq_getElem (by omega), beq_iff_eq.1 (h _ hmem)]
  · intro h x hx
    obtain ⟨i, hi, rfl⟩ := List.mem_drop_iff_getElem.1 hx
    rw [List.length_take] at hi
    have := h (n + i) (by omega) (by omega)
    rw [List.getElem?_eq_getElem (by omega), Option.some_inj] at this
    simp [this]

theorem ofFn_rows {b : Bytes} {f : ℕ → Bytes} (h : ∀ i < 8, f i = row b i) :
    (Vector.ofFn fun i : Fin 8 => indicator (((List.range 8).map f).getD i.val [])) = listed b := by
  refine congrArg Vector.ofFn (funext fun i => ?_)
  rw [← h i i.isLt]
  simp

/-- **Exactly the canonical sections decode**, each to the hint that it lists. -/
theorem decode?_eq_some_iff {b : Bytes} {h : PolyVec .plain 8} :
    decode? b = some h ↔ Canonical b ∧ h = listed b := by
  unfold decode?
  by_cases hlen : b.length = 83
  swap
  · rw [if_neg hlen]
    exact ⟨fun h => absurd h (by simp), fun h => absurd h.1.length_eq hlen⟩
  have hcounts : (b.drop 75).length = 8 := by rw [List.length_drop, hlen]
  rw [if_pos hlen]
  constructor
  · intro hd
    split at hd
    · rename_i rows left hs
      obtain ⟨h1, rfl, rfl⟩ := (splitRows_eq_some_iff (b := b.take 75) rfl).1 hs
      rw [hcounts] at h1 hd
      have hrow : ∀ i < 8, between (b.take 75) (start b i) (start b (i + 1)) = row b i :=
        fun i hi => between_take (h1 i hi).2.1
      split at hd
      · rename_i hz
        refine ⟨⟨hlen, fun i hi => (h1 i hi).1, fun i hi => (h1 i hi).2.1,
          fun i hi => hrow i hi ▸ (h1 i hi).2.2, (all_zero_iff hlen _).1 hz⟩, ?_⟩
        exact (Option.some_inj.1 hd).symm.trans (ofFn_rows hrow)
      · exact absurd hd (by simp)
    · exact absurd hd (by simp)
  · rintro ⟨hc, rfl⟩
    have hrow : ∀ i < 8, between (b.take 75) (start b i) (start b (i + 1)) = row b i :=
      fun i hi => between_take (hc.start_le_max i hi)
    have hs : splitRows 0 (b.drop 75) (b.take 75) = some (_, _) :=
      (splitRows_eq_some_iff (b := b.take 75) rfl).2 ⟨fun i hi => ?_, rfl, rfl⟩
    swap
    · rw [hcounts] at hi
      exact ⟨hc.start_le i hi, hc.start_le_max i hi, (hrow i hi).symm ▸ hc.pairwise_row i hi⟩
    have hz : ((b.take 75).drop (bound 0 (b.drop 75) 8)).all (· == 0) = true :=
      (all_zero_iff hlen (start b 8)).2 hc.padding
    rw [hs, hcounts]
    exact (if_pos hz).trans (congrArg some (ofFn_rows hrow))

theorem number_listed (b : Bytes) (i : Fin 8) (j : Fin 256) :
    (listed b).number i j = if j.val.toUInt8 ∈ row b i then 1 else 0 := by
  have : (listed b).get i = indicator (row b i) := Vector.getElem_ofFn _
  rw [PolyVec.number, this, indicator, Poly.number_ofFn]

/-! ## Encoding -/

theorem splitRows_runningCounts (rows : List Bytes) (used : ℕ) (tail : Bytes)
    (hrows : ∀ r ∈ rows, r.Pairwise (· < ·)) (h : used + rows.flatten.length ≤ 75) :
    splitRows used (runningCounts used rows) (rows.flatten ++ tail) = some (rows, tail) := by
  induction rows generalizing used with
  | nil => rfl
  | cons r rows ih =>
    rw [List.forall_mem_cons] at hrows
    rw [List.flatten_cons, List.length_append] at h
    have hcount : (used + r.length).toUInt8.toNat = used + r.length :=
      UInt8.toNat_ofNat_of_lt' (by norm_num; omega)
    have htake : (r ++ (rows.flatten ++ tail)).take (used + r.length - used) = r := by
      rw [Nat.add_sub_cancel_left, List.take_left]
    have hdrop : (r ++ (rows.flatten ++ tail)).drop (used + r.length - used) = rows.flatten ++ tail := by
      rw [Nat.add_sub_cancel_left, List.drop_left]
    rw [runningCounts, splitRows, List.flatten_cons, List.append_assoc]
    simp only [hcount, htake, hdrop]
    rw [if_pos ⟨Nat.le_add_right _ _, by omega, hrows.1⟩, ih _ hrows.2 (by omega)]
    rfl

theorem pairwise_positions (p : Poly .plain) : (positions p).Pairwise (· < ·) := by
  refine List.Pairwise.map _ (fun i j hij => ?_) ((List.pairwise_lt_finRange 256).filter _)
  rw [UInt8.lt_iff_toNat_lt, UInt8.toNat_ofNat_of_lt' i.isLt, UInt8.toNat_ofNat_of_lt' j.isLt]
  exact hij

theorem mem_positions {p : Poly .plain} {j : Fin 256} :
    j.val.toUInt8 ∈ positions p ↔ p.number j ≠ 0 := by
  simp only [positions, List.mem_map, List.mem_filter, List.mem_finRange, true_and, bne_iff_ne]
  constructor
  · rintro ⟨k, hk, heq⟩
    have : k.val = j.val := by
      have := congrArg UInt8.toNat heq
      rwa [UInt8.toNat_ofNat_of_lt' k.isLt, UInt8.toNat_ofNat_of_lt' j.isLt] at this
    obtain rfl := Fin.ext this
    exact hk
  · exact fun hj => ⟨j, hj, rfl⟩

theorem indicator_positions {p : Poly .plain} (h : ∀ j, p.number j = 0 ∨ p.number j = 1) :
    indicator (positions p) = p := by
  refine Poly.ext_number fun j => ?_
  rw [indicator, Poly.number_ofFn]
  rcases h j with h0 | h1
  · rw [if_neg (fun hj => mem_positions.1 hj h0), h0]
  · rw [if_pos (mem_positions.2 (by rw [h1]; decide)), h1]

end Hint

/-! ## Totals -/

theorem foldl_add_eq_sum {α : Type} {n : ℕ} (f : α → ℕ) (v : Vector α n) :
    v.foldl (fun s a => s + f a) 0 = ∑ i : Fin n, f (v.get i) := by
  have hfold : ∀ (l : List α) (s : ℕ), l.foldl (fun s a => s + f a) s = s + (l.map f).sum := by
    intro l
    induction l with
    | nil => simp
    | cons a l ih =>
      intro s
      rw [List.foldl_cons, ih, List.map_cons, List.sum_cons, Nat.add_assoc]
  have hlist : v.toList.map f = List.ofFn fun i => f (v.get i) := by
    refine List.ext_getElem (by rw [List.length_map, Vector.length_toList, List.length_ofFn]) ?_
    intro i _ _
    rw [List.getElem_map, List.getElem_ofFn, Vector.getElem_toList]
    rfl
  rw [← Vector.foldl_toList, hfold, hlist, List.sum_ofFn, Nat.zero_add]

theorem Poly.total_eq_sum (p : Poly .plain) : p.total = ∑ j, (p.number j).toNatClampNeg :=
  foldl_add_eq_sum Int32.toNatClampNeg p.coeffs

theorem Poly.total_eq_card_ones {p : Poly .plain} (h01 : ∀ j, p.number j = 0 ∨ p.number j = 1) :
    p.total = (Finset.univ.filter fun j => p.number j = 1).card := by
  rw [total_eq_sum, Finset.card_filter]
  refine Finset.sum_congr rfl fun j _ => ?_
  rcases h01 j with h | h <;> rw [h] <;> rfl

namespace PolyVec

variable {n : ℕ}

theorem total_eq_sum (v : PolyVec .plain n) : v.total = ∑ i, (v.get i).total :=
  foldl_add_eq_sum Poly.total v

theorem total_eq_card {v : PolyVec .plain n} {P : Fin n → Fin 256 → Prop} [∀ i j, Decidable (P i j)]
    (h : ∀ i j, v.number i j = if P i j then 1 else 0) :
    v.total = (Finset.univ.filter fun x : Fin n × Fin 256 => P x.1 x.2).card := by
  rw [total_eq_sum, Finset.card_filter, Fintype.sum_prod_type]
  refine Finset.sum_congr rfl fun i _ => ?_
  rw [Poly.total_eq_sum]
  refine Finset.sum_congr rfl fun j _ => ?_
  rw [← number, h]
  split <;> rfl

theorem total_eq_card_ones {v : PolyVec .plain n} (h01 : ∀ i j, v.number i j = 0 ∨ v.number i j = 1) :
    v.total = (Finset.univ.filter fun x : Fin n × Fin 256 => v.number x.1 x.2 = 1).card := by
  refine total_eq_card (P := fun i j => v.number i j = 1) fun i j => ?_
  rcases h01 i j with h | h
  · rw [h, if_neg (by decide)]
  · rw [h, if_pos rfl]

theorem weight_eq_card (v : PolyVec .plain n) :
    v.weight = (Finset.univ.filter fun x : Fin n × Fin 256 => v.number x.1 x.2 ≠ 0).card := by
  have hsum : v.weight = ∑ i, (v.get i).weight := foldl_add_eq_sum Poly.weight v
  rw [hsum, Finset.card_filter, Fintype.sum_prod_type]
  refine Finset.sum_congr rfl fun i _ => ?_
  rw [Poly.weight_eq_card, Finset.card_filter]

theorem weight_eq_total {v : PolyVec .plain n} (h01 : ∀ i j, v.number i j = 0 ∨ v.number i j = 1) :
    v.weight = v.total := by
  rw [weight_eq_card, total_eq_card (P := fun i j => v.number i j ≠ 0) fun i j => ?_]
  rcases h01 i j with h0 | h1
  · rw [h0, if_neg (not_not.2 rfl)]
  · rw [h1, if_pos (by decide)]

end PolyVec

namespace Hint

theorem length_positions (p : Poly .plain) : (positions p).length = p.weight := by
  rw [positions, List.length_map, ← List.countP_eq_length_filter, Poly.weight, Poly.toList_coeffs,
    List.countP_map]
  rfl

theorem length_flatten_positions_eq_weight (h : PolyVec .plain 8) :
    (h.toList.map positions).flatten.length = h.weight := by
  have hmap : (h.toList.map positions).map List.length = h.toList.map Poly.weight := by
    rw [List.map_map]
    exact List.map_congr_left fun p _ => length_positions p
  rw [List.length_flatten, hmap, PolyVec.weight, ← Vector.foldl_toList, List.sum_eq_foldl,
    List.foldl_map]

theorem length_flatten_positions {h : PolyVec .plain 8}
    (h01 : ∀ i j, h.number i j = 0 ∨ h.number i j = 1) :
    (h.toList.map positions).flatten.length = h.total :=
  (length_flatten_positions_eq_weight h).trans (PolyVec.weight_eq_total h01)

theorem bytes_encode {h : PolyVec .plain 8} {rows : List Bytes} (hrows : h.toList.map positions = rows)
    (hlen : rows.flatten.length ≤ 75) :
    (encode h).bytes =
      rows.flatten ++ List.replicate (75 - rows.flatten.length) 0 ++ runningCounts 0 rows := by
  change (h.toList.map positions).flatten.take 75 ++
    List.replicate (75 - ((h.toList.map positions).flatten.take 75).length) 0 ++
      runningCounts 0 (h.toList.map positions) = _
  rw [hrows, List.take_of_length_le hlen]

/-- **A hint with at most 75 ones is recovered from its section.** -/
theorem decode?_encode {h : PolyVec .plain 8}
    (h01 : ∀ i j, h.number i j = 0 ∨ h.number i j = 1) (hw : h.total ≤ 75) :
    decode? (encode h).bytes = some h := by
  let rows : List Bytes := h.toList.map positions
  have hlen : rows.flatten.length ≤ 75 := (length_flatten_positions h01).trans_le hw
  have hfront : (rows.flatten ++ List.replicate (75 - rows.flatten.length) (0 : UInt8)).length = 75 := by
    rw [List.length_append, List.length_replicate]
    omega
  have hpairwise : ∀ r ∈ rows, r.Pairwise (· < ·) := by
    intro r hr
    obtain ⟨p, -, rfl⟩ := List.mem_map.1 hr
    exact pairwise_positions p
  unfold decode?
  rw [if_pos (encode h).length_eq, bytes_encode rfl hlen, List.drop_left' hfront,
    List.take_left' hfront, splitRows_runningCounts rows 0 _ hpairwise (by omega)]
  refine (if_pos (by simp)).trans (congrArg some (PolyVec.ext_entries fun i => ?_))
  have hrow : rows.getD i.val [] = positions (h.get i) := by
    simp [rows]
    rfl
  refine (Vector.getElem_ofFn _).trans ?_
  rw [hrow]
  exact indicator_positions (h01 i)

/-! ## One section for each hint -/

theorem of_splitRows {used : ℕ} {counts rest left : Bytes} {rows : List Bytes}
    (hlen : used + rest.length = 75) (h : splitRows used counts rest = some (rows, left)) :
    runningCounts used rows = counts ∧ rows.flatten ++ left = rest ∧
      ∀ r ∈ rows, r.Pairwise (· < ·) := by
  induction counts generalizing used rest rows left with
  | nil =>
    obtain ⟨rfl, rfl⟩ := Prod.mk.inj (Option.some_inj.1 h)
    exact ⟨rfl, rfl, by simp⟩
  | cons c counts ih =>
    rw [splitRows] at h
    split at h
    swap
    · exact absurd h (by simp)
    rename_i hc
    obtain ⟨⟨rows', left'⟩, hs, heq⟩ := Option.map_eq_some_iff.1 h
    obtain ⟨rfl, rfl⟩ := Prod.mk.inj heq
    have hrest : c.toNat + (rest.drop (c.toNat - used)).length = 75 := by
      rw [List.length_drop]
      omega
    have hrow : used + (rest.take (c.toNat - used)).length = c.toNat := by
      rw [List.length_take]
      omega
    obtain ⟨h1, h2, h3⟩ := ih hrest hs
    refine ⟨?_, ?_, List.forall_mem_cons.2 ⟨hc.2.2, h3⟩⟩
    · rw [runningCounts, hrow, h1]
      exact congrArg (· :: counts) UInt8.ofNat_toNat
    · rw [List.flatten_cons, List.append_assoc, h2, List.take_append_drop]

theorem positions_indicator {row : Bytes} (h : row.Pairwise (· < ·)) :
    positions (indicator row) = row := by
  refine (pairwise_positions _).eq_of_mem_iff h fun x => ?_
  have hx : (⟨x.toNat, x.toNat_lt⟩ : Fin 256).val.toUInt8 = x := UInt8.ofNat_toNat
  rw [← hx, mem_positions, indicator, Poly.number_ofFn]
  simp

theorem zero_or_one_of_decode? {b : Bytes} {h : PolyVec .plain 8} (hb : decode? b = some h)
    (i : Fin 8) (j : Fin 256) : h.number i j = 0 ∨ h.number i j = 1 := by
  obtain ⟨-, rfl⟩ := decode?_eq_some_iff.1 hb
  rw [number_listed]
  split
  · exact Or.inr rfl
  · exact Or.inl rfl

/-- **A section that decodes is the section of its hint**, which has at most 75 ones. -/
theorem encode_of_decode? {b : Bytes} {h : PolyVec .plain 8} (hb : decode? b = some h) :
    (encode h).bytes = b ∧ h.total ≤ 75 := by
  have h01 := zero_or_one_of_decode? hb
  unfold decode? at hb
  split at hb
  swap
  · exact absurd hb (by simp)
  rename_i hlen
  replace hlen : b.length = 83 := hlen
  split at hb
  swap
  · exact absurd hb (by simp)
  rename_i rows left hs
  split at hb
  swap
  · exact absurd hb (by simp)
  rename_i hz
  have hfront : (b.take 75).length = 75 := by
    rw [List.length_take]
    omega
  obtain ⟨hcounts, hflatten, hpairwise⟩ := of_splitRows (by omega) hs
  have hlength : rows.length = 8 := by
    rw [← length_runningCounts 0 rows, hcounts, List.length_drop]
    omega
  have hrows : h.toList.map positions = rows := by
    rw [← Option.some_inj.1 hb]
    refine List.ext_getElem (by simpa using hlength.symm) fun i hi hi' => ?_
    have hget : rows.getD i [] = rows[i] := by simp [hi']
    rw [List.getElem_map, Vector.getElem_toList, Vector.getElem_ofFn, hget]
    exact positions_indicator (hpairwise _ (List.getElem_mem hi'))
  have hsplit : rows.flatten.length + left.length = 75 := by
    rw [← List.length_append, hflatten, hfront]
  have hleft : List.replicate (75 - rows.flatten.length) 0 = left := by
    refine (List.eq_replicate_of_mem fun x hx => ?_).trans (by congr 1; omega) |>.symm
    exact beq_iff_eq.1 (List.all_eq_true.1 hz x hx)
  refine ⟨?_, ?_⟩
  · rw [bytes_encode hrows (by omega), hleft, hflatten, hcounts, List.take_append_drop]
  · rw [← length_flatten_positions h01, hrows]
    omega

end Hint

end LatticeSignature
