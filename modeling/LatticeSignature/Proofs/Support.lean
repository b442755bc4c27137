import LatticeSignature.Proofs.Checked.Hint

/-!
# What a hint section records

A section records which coefficients are not zero and nothing else about them. So every vector with at
most 75 nonzero coefficients is read back as ones where it was not zero, and what a section lists has
as many nonzero coefficients as its last count says.

* `Hint.support`: ones where a vector is not zero.
* `Hint.bytes_encode_support`: a vector is written as its support is.
* **`Hint.decode?_encode_of_weight_le`**: it is read back as its support.
* **`Hint.getLast?_of_decode?`**: the last byte of a section is the weight of its hint.
* **`Hint.section_grammar`**: reading and writing, with every access to the section checked.
-/

namespace LatticeSignature.Hint

open Checked

variable {h : PolyVec .plain 8}

/-- The vector with ones where another one is not zero, and zeros elsewhere. -/
def support (h : PolyVec .plain 8) : PolyVec .plain 8 :=
  .ofFn fun i => .ofFn fun j => if h.number i j = 0 then 0 else 1

theorem number_support (h : PolyVec .plain 8) (i : Fin 8) (j : Fin 256) :
    (support h).number i j = if h.number i j = 0 then 0 else 1 := by
  rw [PolyVec.number, support, PolyVec.get_ofFn, Poly.number_ofFn]

theorem zero_or_one_support (h : PolyVec .plain 8) (i : Fin 8) (j : Fin 256) :
    (support h).number i j = 0 ∨ (support h).number i j = 1 := by
  rw [number_support]
  split
  · exact Or.inl rfl
  · exact Or.inr rfl

theorem weight_support (h : PolyVec .plain 8) : (support h).weight = h.weight := by
  have hzero : ∀ i j, (support h).number i j ≠ 0 ↔ h.number i j ≠ 0 := by
    intro i j
    rw [number_support]
    split <;> simp [*]
  rw [PolyVec.weight_eq_card, PolyVec.weight_eq_card]
  exact congrArg _ (Finset.filter_congr fun x _ => hzero x.1 x.2)

/-! ## Writing -/

theorem positions_support (h : PolyVec .plain 8) (i : Fin 8) :
    positions ((support h).get i) = positions (h.get i) := by
  unfold positions
  refine congrArg (List.map _) (List.filter_congr fun j _ => ?_)
  have hj := number_support h i j
  change ((support h).number i j != 0) = (h.number i j != 0)
  rw [hj]
  split <;> simp [*]

/-- **A vector is written as its support is.** -/
theorem bytes_encode_support (hw : h.weight ≤ 75) :
    (encode (support h)).bytes = (encode h).bytes := by
  have hrows : (support h).toList.map positions = h.toList.map positions := by
    refine List.ext_getElem (by simp) fun i hi _ => ?_
    rw [List.getElem_map, List.getElem_map, Vector.getElem_toList, Vector.getElem_toList]
    exact positions_support h ⟨i, by simpa using hi⟩
  have hlength := (length_flatten_positions_eq_weight h).trans_le hw
  rw [bytes_encode hrows hlength, bytes_encode rfl hlength]

/-- **A vector with at most 75 nonzero coefficients is read back as its support.** -/
theorem decode?_encode_of_weight_le (hw : h.weight ≤ 75) :
    decode? (encode h).bytes = some (support h) := by
  have h01 := zero_or_one_support h
  have htotal : (support h).total ≤ 75 := by rwa [← PolyVec.weight_eq_total h01, weight_support]
  rw [← bytes_encode_support hw]
  exact decode?_encode h01 htotal

/-! ## Reading -/

theorem getLast?_runningCounts (used : ℕ) {rows : List Bytes} (hrows : rows ≠ []) :
    (runningCounts used rows).getLast? = some (used + rows.flatten.length).toUInt8 := by
  obtain ⟨init, r, rfl⟩ := List.eq_nil_or_concat' rows |>.resolve_left hrows
  rw [runningCounts_concat, List.getLast?_concat]

theorem weight_le_of_decode? {b : Bytes} (hb : decode? b = some h) : h.weight ≤ 75 := by
  rw [PolyVec.weight_eq_total (zero_or_one_of_decode? hb)]
  exact (encode_of_decode? hb).2

theorem getLast?_of_decode? {b : Bytes} (hb : decode? b = some h) :
    b.getLast?.map UInt8.toNat = some h.weight := by
  have hweight := weight_le_of_decode? hb
  have hlength := length_flatten_positions_eq_weight h
  have hrows : h.toList.map positions ≠ [] := List.ne_nil_of_length_eq_add_one (n := 7) (by simp)
  rw [← (encode_of_decode? hb).1, bytes_encode rfl (hlength.trans_le hweight), List.getLast?_append,
    getLast?_runningCounts 0 hrows, Option.some_or, Option.map_some, hlength, Nat.zero_add,
    UInt8.toNat_ofNat_of_lt' (by norm_num; omega)]

/-! ## Reading and writing -/

/-- **The sections and what they mean.** Every byte string is read without a fault, and exactly the
canonical ones hold a hint: ones at the positions listed for each row, as many as the last byte says.
Every vector with at most 75 nonzero coefficients is written without a fault, as 83 bytes that do not
depend on what the buffer held, and is read back as ones where it was not zero. -/
theorem section_grammar :
    (∀ b : Bytes, checkedDecode b = .ok (decode? b) ∧ ((decode? b).isSome ↔ Canonical b)) ∧
    (∀ b h, decode? b = some h →
      (∀ i j, h.number i j = if j.val.toUInt8 ∈ row b i then 1 else 0) ∧
        b[82]?.map UInt8.toNat = some h.weight) ∧
    ∀ h : PolyVec .plain 8, h.weight ≤ 75 → ∃ out : Bytes, out.length = 83 ∧
      (∀ buffer : Bytes, 83 ≤ buffer.length →
        checkedEncode h buffer = .ok (out ++ buffer.drop 83)) ∧
      ∃ ones, decode? out = some ones ∧
        ∀ i j, ones.number i j = if h.number i j = 0 then 0 else 1 := by
  refine ⟨fun b => ⟨checkedDecode_eq b, ?_⟩, fun b h hb => ?_, fun h hw => ?_⟩
  · rw [Option.isSome_iff_exists]
    exact ⟨fun ⟨h, hb⟩ => (decode?_eq_some_iff.1 hb).1, fun hc => ⟨_, decode?_eq_some_iff.2 ⟨hc, rfl⟩⟩⟩
  · obtain ⟨hc, rfl⟩ := decode?_eq_some_iff.1 hb
    have hlast := getLast?_of_decode? hb
    rw [List.getLast?_eq_getElem?, hc.length_eq] at hlast
    exact ⟨number_listed b, hlast⟩
  · have hlength := (length_flatten_positions_eq_weight h).trans_le hw
    exact ⟨(encode h).bytes, (encode h).length_eq,
      fun buffer hbuffer => checkedEncode_of_le hbuffer hlength,
      support h, decode?_encode_of_weight_le hw, number_support h⟩

/-- A vector with as many nonzero coefficients as fit: the first of row 0 and the last 74 of row 7. -/
def crowded : PolyVec .plain 8 :=
  .ofFn fun i => .ofFn fun j => if i.val = 0 ∧ j.val = 0 ∨ i.val = 7 ∧ 182 ≤ j.val then -3 else 0

theorem number_crowded (i : Fin 8) (j : Fin 256) :
    crowded.number i j = if i.val = 0 ∧ j.val = 0 ∨ i.val = 7 ∧ 182 ≤ j.val then -3 else 0 := by
  rw [PolyVec.number, crowded, PolyVec.get_ofFn, Poly.number_ofFn]

theorem weight_crowded : crowded.weight = 75 := by
  rw [PolyVec.weight_eq_card]
  simp only [number_crowded]
  decide +kernel

theorem section_grammar_crowded :
    crowded.weight ≤ 75 ∧ 83 ≤ (List.replicate 100 (0xff : UInt8)).length ∧
      ∃ out : Bytes, checkedEncode crowded (List.replicate 100 0xff) =
          .ok (out ++ List.replicate 17 0xff) ∧ Canonical out ∧
        ∃ ones, decode? out = some ones ∧ out[82]?.map UInt8.toNat = some ones.weight ∧
          ones.number 0 0 = 1 ∧ ones.number 7 181 = 0 ∧ ones.number 7 255 = 1 := by
  have hw : crowded.weight ≤ 75 := weight_crowded.le
  have hbuffer : 83 ≤ (List.replicate 100 (0xff : UInt8)).length := by decide
  obtain ⟨hread, hmeaning, hwrite⟩ := section_grammar
  obtain ⟨out, -, hout, ones, hones, hnumber⟩ := hwrite crowded hw
  have hsome : (decode? out).isSome := by rw [hones]; rfl
  refine ⟨hw, hbuffer, out, hout _ hbuffer, (hread out).2.1 hsome, ones, hones,
    (hmeaning out ones hones).2, ?_, ?_, ?_⟩
  · rw [hnumber, number_crowded]
    decide
  · rw [hnumber, number_crowded]
    decide
  · rw [hnumber, number_crowded]
    decide

end LatticeSignature.Hint
