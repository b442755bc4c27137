import LatticeSignature.Proofs.Checked.Basic
import LatticeSignature.Proofs.Hint

/-!
# Checked hint sections

The writer of a hint section goes through all coefficients and writes a byte for each of them, so that
its accesses do not depend on where the ones are; the reader goes through the listed positions and
stops at the first that is out of order.

* **`Hint.checkedEncode_of_le`**: a hint with at most 75 ones is written without a fault.
* **`Hint.checkedDecode_eq`**: every section is read without a fault.
-/

namespace LatticeSignature.Hint

open Checked

/-! ## Encoding -/

/-- Writes position `j` behind the `k` positions so far if the coefficient there is not zero, and the
byte that is there already otherwise. -/
def checkedNote (p : Poly .plain) (j : ℕ) (state : Bytes × ℕ) : Checked (Bytes × ℕ) := do
  let (out, k) := state
  let c ← get p.coeffs j
  let slot := min k 74
  let mask : UInt8 := -(if c ≠ 0 ∧ k < 75 then 1 else 0)
  let position ← byte j
  let old ← elem out slot
  let out ← store out slot ((position &&& mask) ||| (old &&& ~~~mask))
  return (out, if c ≠ 0 then k + 1 else k)

/-- Row `i` and the number of positions up to its end. -/
def checkedNoteRow (h : PolyVec .plain 8) (i : ℕ) (state : Bytes × ℕ) : Checked (Bytes × ℕ) := do
  let p ← get h i
  let (out, k) ← loop (checkedNote p) 256 state
  let count ← byte k
  let out ← store out (75 + i) count
  return (out, k)

/-- Writes the section of a hint to the front of a buffer. -/
def checkedEncode (h : PolyVec .plain 8) (buffer : Bytes) : Checked Bytes := do
  let front ← slice buffer 0 83
  let (out, _) ← loop (checkedNoteRow h) 8 (List.replicate front.length 0, 0)
  splice buffer 0 out

/-- The positions below `j` of the nonzero coefficients of a row. -/
def positionsBelow (p : Poly .plain) (j : ℕ) : Bytes :=
  (((List.finRange 256).take j).filter fun i => p.coeffs.get i != 0).map fun i => i.val.toUInt8

section Encoding

variable {listed room tail : Bytes} {p : Poly .plain}

theorem positionsBelow_succ {j : ℕ} (hj : j < 256) :
    positionsBelow p (j + 1) = positionsBelow p j ++ if p.coeffs[j] ≠ 0 then [j.toUInt8] else [] := by
  have htake : (List.finRange 256).take (j + 1) = (List.finRange 256).take j ++ [⟨j, hj⟩] := by
    rw [List.take_succ_eq_append_getElem (by simpa using hj), List.getElem_finRange]
    rfl
  have hget : p.coeffs.get ⟨j, hj⟩ = p.coeffs[j] := rfl
  unfold positionsBelow
  rw [htake, List.filter_append, List.map_append, List.filter_singleton, hget]
  by_cases hc : p.coeffs[j] = 0
  · rw [if_neg (not_not.2 hc), bne_eq_false_iff_eq.2 hc]
    rfl
  · rw [if_pos hc, bne_iff_ne.2 hc]
    rfl

theorem length_positionsBelow_le (p : Poly .plain) (j : ℕ) :
    (positionsBelow p j).length ≤ (positions p).length := by
  unfold positionsBelow positions
  rw [List.length_map, List.length_map]
  exact ((List.take_sublist j _).filter _).length_le

theorem positionsBelow_all (p : Poly .plain) : positionsBelow p 256 = positions p := by
  unfold positionsBelow positions
  rw [List.take_of_length_le (by simp)]

theorem select_old (a b : UInt8) : (a &&& (-0 : UInt8)) ||| (b &&& ~~~(-0 : UInt8)) = b := by
  simp

theorem select_new (a b : UInt8) : (a &&& (-1 : UInt8)) ||| (b &&& ~~~(-1 : UInt8)) = a := by
  simp

theorem checkedNote_eq {j : ℕ} (hj : j < 256) (hlength : listed.length + room.length = 75)
    (hroom : p.coeffs[j] ≠ 0 → 0 < room.length) :
    checkedNote p j (listed ++ room ++ tail, listed.length) =
      .ok (if p.coeffs[j] ≠ 0 then (listed ++ [j.toUInt8] ++ room.drop 1 ++ tail, listed.length + 1)
        else (listed ++ room ++ tail, listed.length)) := by
  have hslot : min listed.length 74 < (listed ++ room ++ tail).length := by simp; omega
  unfold checkedNote
  simp only
  rw [bind_of_eq (get_eq _ hj), bind_of_eq (byte_eq hj), bind_of_eq (elem_eq hslot)]
  by_cases hc : p.coeffs[j] = 0
  · rw [if_neg (fun h => h.1 hc), if_neg (not_not.2 hc), if_neg (not_not.2 hc), select_old,
      bind_of_eq (store_eq hslot _), List.set_getElem_self]
    rfl
  · obtain ⟨r, room', rfl⟩ := List.exists_cons_of_length_pos (hroom hc)
    rw [List.length_cons] at hlength
    have hmin : min listed.length 74 = listed.length := by omega
    have hstore : store (listed ++ r :: room' ++ tail) listed.length j.toUInt8 =
        .ok (listed ++ [j.toUInt8] ++ room' ++ tail) := by
      rw [List.append_assoc, List.cons_append, store_append]
      simp
    rw [if_pos ⟨hc, by omega⟩, if_pos hc, if_pos hc, select_new, hmin, bind_of_eq hstore]
    rfl

theorem loop_checkedNote_eq (hlength : listed.length + room.length = 75)
    (hroom : (positions p).length ≤ room.length) :
    loop (checkedNote p) 256 (listed ++ room ++ tail, listed.length) =
      .ok (listed ++ positions p ++ room.drop (positions p).length ++ tail,
        (listed ++ positions p).length) := by
  have hstep : ∀ j < 256, checkedNote p j (listed ++ positionsBelow p j ++
      room.drop (positionsBelow p j).length ++ tail, (listed ++ positionsBelow p j).length) =
        .ok (listed ++ positionsBelow p (j + 1) ++ room.drop (positionsBelow p (j + 1)).length ++ tail,
          (listed ++ positionsBelow p (j + 1)).length) := by
    intro j hj
    have hnext := positionsBelow_succ (p := p) hj
    have hbelow := (length_positionsBelow_le p (j + 1)).trans hroom
    have hthis := (length_positionsBelow_le p j).trans hroom
    refine (checkedNote_eq hj ?_ fun hc => ?_).trans ?_
    · rw [List.length_append, List.length_drop]
      omega
    · rw [hnext, if_pos hc, List.length_append, List.length_singleton] at hbelow
      rw [List.length_drop]
      omega
    · rw [hnext]
      split
      · rw [List.drop_drop, @List.length_append _ _ [j.toUInt8]]
        simp [Nat.add_assoc]
      · rw [List.append_nil]
  have h := @loop_eq _ (checkedNote p) (fun j => (listed ++ positionsBelow p j ++
    room.drop (positionsBelow p j).length ++ tail, (listed ++ positionsBelow p j).length)) _ hstep
  rw [positionsBelow_all] at h
  simpa [positionsBelow] using h

theorem checkedNoteRow_eq {h : PolyVec .plain 8} {i : ℕ} (hi : i < 8) {counts zeros : Bytes}
    (hcounts : counts.length = i) (hlength : listed.length + room.length = 75)
    (hroom : (positions h[i]).length ≤ room.length) :
    checkedNoteRow h i (listed ++ room ++ (counts ++ 0 :: zeros), listed.length) =
      .ok (listed ++ positions h[i] ++ room.drop (positions h[i]).length ++
          (counts ++ (listed ++ positions h[i]).length.toUInt8 :: zeros),
        (listed ++ positions h[i]).length) := by
  have hloop := @loop_checkedNote_eq _ _ (counts ++ 0 :: zeros) _ hlength hroom
  generalize positions h[i] = row at *
  have hcount : (listed ++ row).length < 256 := by
    rw [List.length_append]
    omega
  have hindex : 75 + i = (listed ++ row ++ room.drop row.length ++ counts).length := by
    simp
    omega
  have hstore : store (listed ++ row ++ room.drop row.length ++ (counts ++ 0 :: zeros)) (75 + i)
      (listed ++ row).length.toUInt8 = .ok (listed ++ row ++ room.drop row.length ++
        (counts ++ (listed ++ row).length.toUInt8 :: zeros)) := by
    rw [← List.append_assoc _ counts, hindex, store_append, List.append_assoc _ counts]
  rw [checkedNoteRow, bind_of_eq (get_eq h hi), bind_of_eq hloop]
  simp only
  rw [bind_of_eq (byte_eq hcount), bind_of_eq hstore]
  rfl

theorem runningCounts_concat (used : ℕ) (rows : List Bytes) (r : Bytes) :
    runningCounts used (rows ++ [r]) =
      runningCounts used rows ++ [(used + (rows ++ [r]).flatten.length).toUInt8] := by
  induction rows generalizing used with
  | nil => simp [runningCounts]
  | cons row rows ih => simp [runningCounts, ih, Nat.add_assoc]

/-- **A hint with at most 75 ones is written without a fault** to the front of a buffer. -/
theorem checkedEncode_of_le {h : PolyVec .plain 8} {buffer : Bytes} (hbuffer : 83 ≤ buffer.length)
    (hlength : (h.toList.map positions).flatten.length ≤ 75) :
    checkedEncode h buffer = .ok ((encode h).bytes ++ buffer.drop 83) := by
  obtain ⟨rows, hrows⟩ : ∃ rows, h.toList.map positions = rows := ⟨_, rfl⟩
  rw [hrows] at hlength
  have hcount : rows.length = 8 := by simp [← hrows]
  -- after `i` rows their positions and their counts are written, and zeros are still behind both
  let state (i : ℕ) : Bytes × ℕ := ((rows.take i).flatten ++
    List.replicate (75 - (rows.take i).flatten.length) 0 ++
      (runningCounts 0 (rows.take i) ++ List.replicate (8 - i) 0), (rows.take i).flatten.length)
  have hstep : ∀ i < 8, checkedNoteRow h i (state i) = .ok (state (i + 1)) := by
    intro i hi
    have hrow : rows[i] = positions h[i] := by simp [← hrows]
    have hnext : rows.take (i + 1) = rows.take i ++ [positions h[i]] := by
      rw [← hrow, List.take_succ_eq_append_getElem]
    have hlater : (rows.take i).flatten.length + (positions h[i]).length ≤ 75 := by
      have hflat : (rows.take (i + 1)).flatten = (rows.take i).flatten ++ positions h[i] := by
        rw [hnext, List.flatten_append, List.flatten_singleton]
      rw [← List.length_append, ← hflat]
      exact ((List.take_sublist _ _).flatten).length_le.trans hlength
    have hcounts : (runningCounts 0 (rows.take i)).length = i := by
      rw [length_runningCounts, List.length_take]
      omega
    have hzeros : List.replicate (8 - i) (0 : UInt8) = 0 :: List.replicate (8 - (i + 1)) 0 := by
      rw [← List.replicate_succ]
      congr 1
      omega
    simp only [state]
    rw [hzeros, checkedNoteRow_eq hi hcounts (by rw [List.length_replicate]; omega)
      (by rw [List.length_replicate]; omega), hnext, runningCounts_concat, Nat.zero_add,
      List.drop_replicate]
    simp [Nat.sub_sub]
  have hloop := loop_eq state hstep
  have hfront : ((buffer.drop 0).take (83 - 0)).length = 83 := List.length_take_of_le hbuffer
  have hzero : state 0 = (List.replicate ((buffer.drop 0).take (83 - 0)).length 0, 0) := by
    rw [hfront]
    rfl
  have hall : (state 8).1 = (encode h).bytes := by
    rw [bytes_encode hrows hlength]
    simp [state, List.take_of_length_le hcount.le]
  rw [checkedEncode, bind_of_eq (slice_eq (Nat.zero_le 83) hbuffer), ← hzero, bind_of_eq hloop]
  simp only
  rw [hall, splice_front (by rwa [(encode h).length_eq]), (encode h).length_eq]

theorem checkedEncode_eq {h : PolyVec .plain 8} {buffer : Bytes} (hbuffer : buffer.length = 83)
    (hlength : (h.toList.map positions).flatten.length ≤ 75) :
    checkedEncode h buffer = .ok (encode h).bytes := by
  rw [checkedEncode_of_le hbuffer.ge hlength, List.drop_of_length_le hbuffer.le, List.append_nil]

end Encoding

/-! ## Decoding -/

/-- Whether the position at `j` lies above the one before it, if that is not in an earlier row. -/
def checkedRises (listed : Bytes) (k j : ℕ) (position : UInt8) : Checked Bool :=
  if k < j then do
    let before ← minus j 1
    let previous ← elem listed before
    return decide (previous < position)
  else return true

/-- Puts ones at the `n` positions from `j` on, the first of the row being at `k`, as long as they
rise. -/
def checkedRow (listed : Bytes) (k : ℕ) : (j n : ℕ) → Vector Int32 256 →
    Checked (Option (Vector Int32 256))
  | _, 0, row => .ok (some row)
  | j, n + 1, row => do
    let position ← elem listed j
    let rises ← checkedRises listed k j position
    if rises then
      let row ← set row position.toNat 1
      checkedRow listed k (j + 1) n row
    else return none

/-- Rows `i` to `i + n - 1`, the first position being at `k`. -/
def checkedRows (listed counts : Bytes) : (i n : ℕ) → PolyVec .plain 8 × ℕ →
    Checked (Option (PolyVec .plain 8 × ℕ))
  | _, 0, state => .ok (some state)
  | i, n + 1, (h, k) => do
    let count ← elem counts i
    if count.toNat < k ∨ 75 < count.toNat then return none
    else
      let p ← get h i
      match ← checkedRow listed k k (count.toNat - k) p.coeffs with
      | none => return none
      | some row =>
        let h ← set h i ⟨row⟩
        checkedRows listed counts (i + 1) n (h, count.toNat)

/-- Reads a section, unless its length or its form is wrong. -/
def checkedDecode (b : Bytes) : Checked (Option (PolyVec .plain 8)) :=
  if b.length ≠ 83 then return none
  else do
    let listed ← slice b 0 75
    let counts ← slice b 75 b.length
    match ← checkedRows listed counts 0 8 (PolyVec.zero, 0) with
    | none => return none
    | some (h, k) =>
      let padding ← slice listed k listed.length
      if padding.any (· ≠ 0) then return none else return some h

/-- A row with ones at further positions. -/
def mark (row : Vector Int32 256) (positions : Bytes) : Vector Int32 256 :=
  positions.foldl (fun row b => row.set b.toNat 1 b.toNat_lt) row

section Decoding

variable {listed : Bytes}

/-- The position that the one at `j` has to lie above, if there is one. -/
def before (listed : Bytes) (k j : ℕ) : Bytes := if k < j then (listed.drop (j - 1)).take 1 else []

theorem take_one_drop {j : ℕ} (hj : j < listed.length) : (listed.drop j).take 1 = [listed[j]] := by
  rw [List.drop_eq_getElem_cons hj]
  rfl

theorem checkedRises_eq {k j : ℕ} (hj : j < listed.length) (later : Bytes) :
    ∃ rises, checkedRises listed k j listed[j] = .ok rises ∧
      ((before listed k j ++ listed[j] :: later).IsChain (· < ·) ↔
        rises = true ∧ (listed[j] :: later).IsChain (· < ·)) := by
  unfold checkedRises before
  split
  · have hprevious : j - 1 < listed.length := by omega
    refine ⟨decide (listed[j - 1] < listed[j]), ?_, ?_⟩
    · rw [bind_of_eq (minus_eq (by omega)), bind_of_eq (elem_eq hprevious)]
      rfl
    · rw [take_one_drop hprevious, List.singleton_append, List.isChain_cons_cons, decide_eq_true_iff]
  · exact ⟨true, rfl, by simp⟩

theorem checkedRow_eq {k j n : ℕ} (row : Vector Int32 256) (hk : k ≤ j) (hj : j + n ≤ listed.length) :
    checkedRow listed k j n row =
      .ok (if (before listed k j ++ (listed.drop j).take n).IsChain (· < ·)
        then some (mark row ((listed.drop j).take n)) else none) := by
  induction n generalizing j row with
  | zero =>
    have hchain : (before listed k j ++ (listed.drop j).take 0).IsChain (· < ·) := by
      unfold before
      split
      · rw [take_one_drop (by omega)]
        simp
      · simp
    rw [if_pos hchain]
    rfl
  | succ n ih =>
    have hlt : j < listed.length := by omega
    obtain ⟨rises, hrises, hchain⟩ := checkedRises_eq (k := k) hlt ((listed.drop (j + 1)).take n)
    have hnext : before listed k (j + 1) = [listed[j]] := by
      rw [before, if_pos (by omega), Nat.add_sub_cancel, take_one_drop hlt]
    rw [List.drop_eq_getElem_cons hlt, List.take_succ_cons, checkedRow, bind_of_eq (elem_eq hlt),
      bind_of_eq hrises]
    cases rises with
    | false =>
      rw [if_neg (fun h => absurd (hchain.1 h).1 (by simp))]
      rfl
    | true =>
      rw [if_pos rfl, bind_of_eq (set_eq _ listed[j].toNat_lt 1), ih _ (by omega) (by omega), hnext,
        List.singleton_append, if_congr (hchain.trans (and_iff_right rfl)) rfl rfl]
      rfl

theorem getElem_mark (row : Vector Int32 256) (positions : Bytes) {i : ℕ} (hi : i < 256) :
    (mark row positions)[i] = if i.toUInt8 ∈ positions then 1 else row[i] := by
  induction positions generalizing row with
  | nil => simp [mark]
  | cons b positions ih =>
    have hb : b.toNat = i ↔ i.toUInt8 = b := by
      rw [← UInt8.toNat_inj, UInt8.toNat_ofNat_of_lt' hi, eq_comm]
    rw [show mark row (b :: positions) = mark (row.set b.toNat 1 b.toNat_lt) positions from rfl, ih,
      Vector.getElem_set]
    by_cases hmem : i.toUInt8 ∈ positions
    · rw [if_pos hmem, if_pos (List.mem_cons_of_mem b hmem)]
    · rw [if_neg hmem]
      exact if_congr (hb.trans (by simp [hmem])) rfl rfl

theorem mark_zero (positions : Bytes) :
    (⟨mark (0 : Poly .plain).coeffs positions⟩ : Poly .plain) = indicator positions := by
  refine Poly.ext_getElem fun i hi => ?_
  rw [indicator, Poly.getElem_ofFn, ← Poly.getElem_coeffs, getElem_mark _ _ hi]
  exact congrArg (ite _ 1) (Poly.number_zero ⟨i, hi⟩)

/-- A hint with rows `i` and following replaced. -/
def place : PolyVec .plain 8 → ℕ → List Bytes → PolyVec .plain 8
  | h, _, [] => h
  | h, i, row :: rows => place (h.setIfInBounds i (indicator row)) (i + 1) rows

theorem getElem_place (h : PolyVec .plain 8) (i : ℕ) (rows : List Bytes) {r : ℕ} (hr : r < 8) :
    (place h i rows)[r] = if i ≤ r ∧ r - i < rows.length then indicator (rows.getD (r - i) []) else h[r] := by
  induction rows generalizing h i with
  | nil => simp [place]
  | cons row rows ih =>
    rw [place, ih, Vector.getElem_setIfInBounds]
    rcases lt_trichotomy r i with hlt | rfl | hgt
    · rw [if_neg (by omega), if_neg (by omega), if_neg (by omega)]
    · rw [if_neg (by omega), if_pos rfl, if_pos (by simp)]
      simp
    · obtain ⟨m, hm⟩ : ∃ m, r - i = m + 1 := ⟨r - i - 1, by omega⟩
      rw [show r - (i + 1) = m by omega, hm, List.length_cons, List.getD_cons_succ,
        if_neg (show ¬i = r by omega)]
      exact if_congr ⟨fun h => by omega, fun h => by omega⟩ rfl rfl

/-- **The rows of a section** are those that its counts cut off. -/
theorem checkedRows_eq {counts : Bytes} (hlisted : listed.length = 75) (hcounts : counts.length = 8)
    {i n k : ℕ} (hi : i + n = 8) (hk : k ≤ 75) {h : PolyVec .plain 8}
    (hzero : ∀ (r : ℕ) (_ : r < 8), i ≤ r → h[r] = 0) :
    checkedRows listed counts i n (h, k) = .ok ((splitRows k (counts.drop i) (listed.drop k)).map
      fun (rows, _) => (place h i rows, k + rows.flatten.length)) := by
  induction n generalizing i k h with
  | zero =>
    rw [List.drop_of_length_le (by omega)]
    rfl
  | succ n ih =>
    have hlt : i < counts.length := by omega
    have hi8 : i < 8 := by omega
    rw [List.drop_eq_getElem_cons hlt, checkedRows, bind_of_eq (elem_eq hlt), splitRows]
    generalize counts[i].toNat = stop
    by_cases hstop : stop < k ∨ 75 < stop
    · rw [if_pos hstop, if_neg (by omega)]
      rfl
    · have hbefore : before listed k k = [] := if_neg (lt_irrefl k)
      have hrow := @checkedRow_eq listed k k (stop - k) (0 : Poly .plain).coeffs le_rfl (by omega)
      rw [hbefore, List.nil_append] at hrow
      obtain ⟨row, hr⟩ : ∃ row, (listed.drop k).take (stop - k) = row := ⟨_, rfl⟩
      have hlength : k + row.length = stop := by
        rw [← hr, List.length_take, List.length_drop]
        omega
      rw [hr] at hrow
      rw [if_neg hstop, bind_of_eq (get_eq h hi8), hzero i hi8 le_rfl, bind_of_eq hrow, hr]
      by_cases hchain : row.IsChain (· < ·)
      · have hset : Checked.set h i ⟨mark (0 : Poly .plain).coeffs row⟩ =
            .ok (h.setIfInBounds i (indicator row)) := by
          rw [set_eq h hi8, mark_zero]
          refine congrArg Except.ok (Vector.ext fun r hr => ?_)
          rw [Vector.getElem_set, Vector.getElem_setIfInBounds]
        have hnext : ∀ (r : ℕ) (_ : r < 8), i + 1 ≤ r → (h.setIfInBounds i (indicator row))[r] = 0 := by
          intro r hr hle
          rw [Vector.getElem_setIfInBounds_ne hr (by omega)]
          exact hzero r hr (by omega)
        rw [if_pos hchain, if_pos ⟨by omega, by omega, List.isChain_iff_pairwise.1 hchain⟩]
        simp only
        rw [bind_of_eq hset, ih (by omega) (by omega) hnext, List.drop_drop,
          Nat.add_sub_cancel' (by omega), Option.map_map]
        refine congrArg Except.ok (congrArg (Option.map · _) (funext fun x => ?_))
        simp [place, ← hlength, Nat.add_assoc]
      · rw [if_neg hchain, if_neg (fun hc => hchain (List.isChain_iff_pairwise.2 hc.2.2))]
        rfl

/-- **Every section is read without a fault.** -/
theorem checkedDecode_eq (b : Bytes) : checkedDecode b = .ok (decode? b) := by
  unfold checkedDecode decode?
  by_cases hb : b.length = 83
  swap
  · rw [if_pos hb, if_neg hb]
    rfl
  have hlisted : slice b 0 75 = .ok (b.take 75) := slice_eq (Nat.zero_le _) (by omega)
  have hcounts : slice b 75 b.length = .ok (b.drop 75) := by
    rw [slice_eq (by omega) le_rfl, List.take_of_length_le (by simp)]
  have hlength : (b.take 75).length = 75 := by rw [List.length_take]; omega
  have hrows := @checkedRows_eq (b.take 75) (b.drop 75) hlength (by rw [List.length_drop]; omega) 0 8 0
    rfl (Nat.zero_le _) PolyVec.zero fun r hr _ => Vector.getElem_replicate hr
  rw [List.drop_zero, List.drop_zero] at hrows
  rw [if_neg (not_not.2 hb), if_pos hb, bind_of_eq hlisted, bind_of_eq hcounts, bind_of_eq hrows]
  cases hsplit : splitRows 0 (b.drop 75) (b.take 75) with
  | none => rfl
  | some cut =>
    obtain ⟨rows, left⟩ := cut
    obtain ⟨-, hflatten, -⟩ := of_splitRows (by omega) hsplit
    have hpadding : slice (b.take 75) (0 + rows.flatten.length) (b.take 75).length = .ok left := by
      rw [← hflatten, Nat.zero_add, slice_eq (by simp) le_rfl, List.drop_left,
        List.take_of_length_le (by simp)]
    have hplace : place PolyVec.zero 0 rows = .ofFn fun i => indicator (rows.getD i.val []) := by
      refine Vector.ext fun r hr => ?_
      rw [getElem_place _ _ _ hr, Vector.getElem_ofFn, Nat.sub_zero]
      split
      · rfl
      · next h =>
        have hnil : rows.getD r [] = [] := by
          rw [List.getD_eq_getElem?_getD, List.getElem?_eq_none (by omega), Option.getD_none]
        rw [hnil]
        exact (Vector.getElem_replicate hr).trans (Poly.ext_number fun j => by simp [indicator])
    simp only [Option.map_some]
    rw [bind_of_eq hpadding, hplace]
    by_cases hleft : left.all (· == 0)
    · rw [if_pos hleft, if_neg (by simpa using hleft)]
      rfl
    · rw [if_neg hleft, if_pos (by simpa using hleft)]
      rfl

end Decoding

end LatticeSignature.Hint
