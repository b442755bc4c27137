import LatticeSignature.Proofs.Challenge
import LatticeSignature.Proofs.Checked.Sampler

/-!
# Rejection sampling as a filter

The samplers of the matrix and of the short secrets cut a stream into candidates and keep those that are
in range. They read the stream block by block, write to the front of an array, and go on with another
block when the array is not full. Wherever the blocks end, they find what a filter finds on the stream as
a whole.

* `Sampler.accepted`, `Sampler.FirstAccepted`: the filter.
* `Sampler.uniformValue`, `Sampler.etaValue`: the candidates of a stream and their values.
* **`Sampler.map_acceptUniform`**, **`Sampler.map_acceptEta`**: what is found in a buffer.
* **`Sampler.collect_uniform`**, **`Sampler.collect_eta`**: what one more buffer adds.
* `Sampler.full_of_moreUniform`, `Sampler.full_of_moreEta`: what further blocks add, however many.
* **`uniform_filters_stream`**, **`uniformEta_filters_stream`**.
-/

namespace LatticeSignature

open Checked Params

namespace Sampler

/-! ## Filters -/

/-- The values of those of the first `n` candidates that have one, in order. -/
def accepted (value : ℕ → Option ℤ) (n : ℕ) : List ℤ := (List.range n).filterMap value

/-- **The values of the first candidates that have one**, as many as are listed. -/
def FirstAccepted (value : ℕ → Option ℤ) (l : List ℤ) : Prop := ∃ n, l <+: accepted value n

section Filters

variable {value value' : ℕ → Option ℤ} {l l' : List ℤ} {m n : ℕ}

theorem accepted_one (value : ℕ → Option ℤ) : accepted value 1 = (value 0).toList := by
  cases h : value 0 <;> simp [accepted, h]

theorem accepted_add (value : ℕ → Option ℤ) (m n : ℕ) :
    accepted value (m + n) = accepted value m ++ accepted (fun k => value (m + k)) n := by
  rw [accepted, List.range_add, List.filterMap_append, List.filterMap_map]
  rfl

theorem accepted_congr (h : ∀ k < n, value k = value' k) : accepted value n = accepted value' n :=
  List.filterMap_congr fun k hk => h k (List.mem_range.1 hk)

theorem accepted_prefix_of_le (h : m ≤ n) : accepted value m <+: accepted value n := by
  obtain ⟨k, rfl⟩ := Nat.exists_eq_add_of_le h
  rw [accepted_add]
  exact List.prefix_append _ _

theorem FirstAccepted.unique (h : FirstAccepted value l) (h' : FirstAccepted value l')
    (hlength : l.length = l'.length) : l = l' := by
  obtain ⟨m, hm⟩ := h
  obtain ⟨n, hn⟩ := h'
  have hm' := hm.trans (accepted_prefix_of_le (le_max_left m n))
  have hn' := hn.trans (accepted_prefix_of_le (le_max_right m n))
  exact (List.prefix_of_prefix_length_le hm' hn' hlength.le).eq_of_length hlength

end Filters

/-! ## Candidates -/

/-- The value of three bytes: the number that they spell, low byte first and without the top bit, if it
is below `q`. -/
def tripleValue (x y z : UInt8) : Option ℤ :=
  let t : ℕ := (x.toNat + 256 * y.toNat + 65536 * z.toNat) % 2 ^ 23
  if t < 8380417 then some t else none

/-- The value of a half byte `t`: 2 less its residue modulo 5, if it is below 15. -/
def halfValue (t : ℕ) : Option ℤ := if t < 15 then some (2 - (t % 5 : ℕ)) else none

/-- The candidates for matrix entries: a stream in steps of three bytes. -/
def uniformValue (stream : ℕ → UInt8) (k : ℕ) : Option ℤ :=
  tripleValue (stream (3 * k)) (stream (3 * k + 1)) (stream (3 * k + 2))

/-- The candidates for short coefficients: the halves of the bytes of a stream, the low one first. -/
def etaValue (stream : ℕ → UInt8) (k : ℕ) : Option ℤ :=
  halfValue ((stream (k / 2)).toNat / 16 ^ (k % 2) % 16)

/-- A buffer as the beginning of a stream. -/
def byteAt (buf : Bytes) (i : ℕ) : UInt8 := buf.getD i 0

section Candidates

variable {stream stream' : ℕ → UInt8} {n k : ℕ}

theorem uniformValue_add (stream : ℕ → UInt8) (m k : ℕ) :
    uniformValue stream (m + k) = uniformValue (fun i => stream (3 * m + i)) k := by
  simp only [uniformValue, Nat.mul_add, Nat.add_assoc]

theorem etaValue_add (stream : ℕ → UInt8) (p k : ℕ) :
    etaValue stream (2 * p + k) = etaValue (fun i => stream (p + i)) k := by
  rw [etaValue, Nat.mul_add_div Nat.two_pos, Nat.mul_add_mod]
  rfl

theorem uniformValue_congr (h : ∀ i < n, stream i = stream' i) (hk : k < n / 3) :
    uniformValue stream k = uniformValue stream' k := by
  rw [uniformValue, h _ (by omega), h _ (by omega), h _ (by omega), uniformValue]

theorem etaValue_congr (h : ∀ i < n, stream i = stream' i) (hk : k < 2 * n) :
    etaValue stream k = etaValue stream' k := by
  rw [etaValue, h _ (by omega), etaValue]

theorem toNat_candidate (x y z : UInt8) :
    (candidate x y z).toNat = (x.toNat + 256 * y.toNat + 65536 * z.toNat) % 2 ^ 23 := by
  have hx := x.toNat_lt
  have hy := y.toNat_lt
  have hz := z.toNat_lt
  have hlow : x.toNat ||| y.toNat <<< 8 = x.toNat + 256 * y.toNat := by
    rw [Nat.or_comm, ← Nat.shiftLeft_add_eq_or_of_lt hx, Nat.shiftLeft_eq]
    ring
  have hall : x.toNat ||| y.toNat <<< 8 ||| z.toNat <<< 16 =
      x.toNat + 256 * y.toNat + 65536 * z.toNat := by
    rw [hlow, Nat.or_comm, ← Nat.shiftLeft_add_eq_or_of_lt (by omega), Nat.shiftLeft_eq]
    ring
  have hy' : (y.toUInt32 <<< 8).toNat = y.toNat <<< 8 := by
    refine (UInt32.toNat_shiftLeft ..).trans (Nat.mod_eq_of_lt ?_)
    change y.toNat <<< 8 < _
    rw [Nat.shiftLeft_eq]
    omega
  have hz' : (z.toUInt32 <<< 16).toNat = z.toNat <<< 16 := by
    refine (UInt32.toNat_shiftLeft ..).trans (Nat.mod_eq_of_lt ?_)
    change z.toNat <<< 16 < _
    rw [Nat.shiftLeft_eq]
    omega
  rw [candidate, UInt32.toNat_and, UInt32.toNat_or, UInt32.toNat_or, hy', hz', UInt8.toNat_toUInt32,
    hall]
  exact Nat.and_two_pow_sub_one_eq_mod _ 23

theorem tripleValue_eq (x y z : UInt8) : tripleValue x y z =
    if uniformCandidate x y z < q then some (uniformCandidate x y z).toInt else none := by
  have hvalue : (uniformCandidate x y z).toInt = (candidate x y z).toNat := toInt_uniformCandidate x y z
  rw [toNat_candidate] at hvalue
  have hlt : (x.toNat + 256 * y.toNat + 65536 * z.toNat) % 2 ^ 23 < 8380417 ↔ uniformCandidate x y z < q := by
    rw [Int32.lt_iff_toInt_lt, Words.toInt_q, hvalue]
    norm_cast
  exact if_congr hlt (congrArg some hvalue.symm) rfl

theorem toInt_etaCoefficient {t : UInt8} (h : t < 15) :
    (etaCoefficient t).toInt = 2 - (t.toNat % 5 : ℕ) := by
  have hall : ∀ n < 15, (etaCoefficient (UInt8.ofNat n)).toInt = 2 - (n % 5 : ℕ) := by decide +kernel
  have := hall t.toNat (UInt8.lt_iff_toNat_lt.1 h)
  rwa [UInt8.ofNat_toNat] at this

theorem halfValue_toNat (t : UInt8) :
    halfValue t.toNat = if t < 15 then some (etaCoefficient t).toInt else none := by
  rw [halfValue, ← show (15 : UInt8).toNat = 15 from rfl]
  split
  · rename_i h
    have hlt : t < 15 := UInt8.lt_iff_toNat_lt.2 h
    rw [if_pos hlt, toInt_etaCoefficient hlt]
  · rename_i h
    rw [if_neg fun hlt => h (UInt8.lt_iff_toNat_lt.1 hlt)]

end Candidates

/-! ## Candidates in a buffer -/

section Buffers

theorem accepted_uniformValue_cons (x y z : UInt8) (rest : Bytes) :
    accepted (uniformValue (byteAt (x :: y :: z :: rest))) ((x :: y :: z :: rest).length / 3) =
      (tripleValue x y z).toList ++ accepted (uniformValue (byteAt rest)) (rest.length / 3) := by
  have hlength : (x :: y :: z :: rest).length / 3 = 1 + rest.length / 3 := by
    simp only [List.length_cons]
    omega
  have hlater : (fun k => uniformValue (byteAt (x :: y :: z :: rest)) (1 + k)) =
      uniformValue (byteAt rest) := by
    funext k
    rw [uniformValue_add]
    congr 1
    funext i
    rw [Nat.add_comm]
    rfl
  rw [hlength, accepted_add, accepted_one, hlater]
  rfl

/-- **What is found in a buffer** is the filter on its whole triples, as far as there is room. -/
theorem map_acceptUniform (room : ℕ) (buf : Bytes) : (acceptUniform room buf).map Int32.toInt =
    (accepted (uniformValue (byteAt buf)) (buf.length / 3)).take room := by
  fun_induction acceptUniform room buf with
  | case1 => rfl
  | case2 room x y z rest t ht ih =>
    have hvalue : tripleValue x y z = some t.toInt := (tripleValue_eq x y z).trans (if_pos ht)
    rw [accepted_uniformValue_cons, hvalue, List.map_cons, ih]
    rfl
  | case3 room x y z rest t ht ih =>
    have hvalue : tripleValue x y z = none := (tripleValue_eq x y z).trans (if_neg ht)
    rw [accepted_uniformValue_cons, hvalue, ih]
    rfl
  | case4 buf room hbuf =>
    have hlength : buf.length / 3 = 0 := by
      rcases buf with _ | ⟨x, _ | ⟨y, _ | ⟨z, rest⟩⟩⟩
      · simp
      · simp
      · simp
      · exact absurd rfl (hbuf x y z rest)
    rw [hlength]
    rfl

theorem accepted_etaValue_cons (b : UInt8) (rest : Bytes) :
    accepted (etaValue (byteAt (b :: rest))) (2 * (b :: rest).length) =
      (halfValue (b &&& 0x0f).toNat).toList ++ (halfValue (b >>> 4).toNat).toList ++
        accepted (etaValue (byteAt rest)) (2 * rest.length) := by
  have hlow : etaValue (byteAt (b :: rest)) 0 = halfValue (b &&& 0x0f).toNat := by
    have : (b &&& 0x0f).toNat = b.toNat % 16 := by
      rw [UInt8.toNat_and]
      exact Nat.and_two_pow_sub_one_eq_mod _ 4
    rw [this, etaValue, Nat.zero_mod, pow_zero, Nat.div_one]
    rfl
  have hhigh : etaValue (byteAt (b :: rest)) 1 = halfValue (b >>> 4).toNat := by
    have hlt := b.toNat_lt
    have : (b >>> 4).toNat = b.toNat / 16 % 16 := by
      rw [UInt8.toNat_shiftRight, Nat.shiftRight_eq_div_pow]
      change b.toNat / 16 = _
      omega
    rw [this]
    rfl
  have hlater : (fun k => etaValue (byteAt (b :: rest)) (2 + k)) = etaValue (byteAt rest) := by
    funext k
    rw [show 2 + k = 2 * 1 + k from rfl, etaValue_add]
    congr 1
    funext i
    rw [Nat.add_comm]
    rfl
  have htwo : accepted (etaValue (byteAt (b :: rest))) 2 =
      (halfValue (b &&& 0x0f).toNat).toList ++ (halfValue (b >>> 4).toNat).toList := by
    rw [← hlow, ← hhigh, accepted_add _ 1 1, accepted_one, accepted_one]
  rw [List.length_cons, Nat.mul_succ, Nat.add_comm, accepted_add, hlater, htwo]

theorem filterMap_nibbles (buf : Bytes) : ((nibbles buf).filterMap fun t => halfValue t.toNat) =
    accepted (etaValue (byteAt buf)) (2 * buf.length) := by
  induction buf with
  | nil => rfl
  | cons b rest ih =>
    rw [accepted_etaValue_cons, ← ih, nibbles, List.flatMap_cons, List.filterMap_append]
    congr 1
    simp only [List.filterMap_cons, List.filterMap_nil]
    generalize halfValue (b &&& 0x0f).toNat = low, halfValue (b >>> 4).toNat = high
    cases low <;> cases high <;> rfl

theorem map_acceptEta_eq_filterMap (room : ℕ) (ts : Bytes) : (acceptEta room ts).map Int32.toInt =
    (ts.filterMap fun t => halfValue t.toNat).take room := by
  fun_induction acceptEta room ts with
  | case1 => rfl
  | case2 => rfl
  | case3 room t ts ht ih =>
    have hvalue : halfValue t.toNat = some (etaCoefficient t).toInt := (halfValue_toNat t).trans (if_pos ht)
    simp only [List.filterMap_cons, hvalue, List.map_cons, ih]
    rfl
  | case4 room t ts ht ih =>
    have hvalue : halfValue t.toNat = none := (halfValue_toNat t).trans (if_neg ht)
    simp only [List.filterMap_cons, hvalue]
    exact ih

/-- **What is found in a buffer** is the filter on the halves of its bytes, as far as there is room. -/
theorem map_acceptEta (room : ℕ) (buf : Bytes) : (acceptEta room (nibbles buf)).map Int32.toInt =
    (accepted (etaValue (byteAt buf)) (2 * buf.length)).take room := by
  rw [map_acceptEta_eq_filterMap, filterMap_nibbles]

/-- **A list `a` filled from the front**: as many of the values as fit, `n` of them, and behind them what
stood there before. -/
structure Filled (values : List ℤ) (a : List Int32) (n : ℕ) (out : List Int32) : Prop where
  count_eq : n = min a.length values.length
  front_eq : (out.take n).map Int32.toInt = values.take n
  rest_eq : out.drop n = a.drop n

theorem filled_writeFront {values : List ℤ} {a found : List Int32}
    (h : found.map Int32.toInt = values.take a.length) :
    Filled values a found.length (writeFront a found) := by
  have hlength : found.length = min a.length values.length := by
    simpa using congrArg List.length h
  refine ⟨hlength, ?_, ?_⟩
  · rw [writeFront, List.take_left, h, hlength, ← List.take_take, List.take_length]
  · rw [writeFront, List.drop_left]

end Buffers

/-! ## Candidates in a stream -/

/-- What a sampler has after it has looked at the first `m` candidates: the first 256 accepted values, or
all if there are fewer. -/
def Collected (value : ℕ → Option ℤ) (m : ℕ) (found : List Int32) : Prop :=
  found.map Int32.toInt = (accepted value m).take 256

section Collected

variable {value : ℕ → Option ℤ} {m n : ℕ} {found more : List Int32}

theorem Collected.start (value : ℕ → Option ℤ) : Collected value 0 [] := rfl

theorem Collected.length_eq (h : Collected value m found) :
    found.length = min 256 (accepted value m).length := by
  simpa using congrArg List.length h

theorem Collected.append (h : Collected value m found) (hmore : more.map Int32.toInt =
    (accepted (fun k => value (m + k)) n).take (256 - found.length)) :
    Collected value (m + n) (found ++ more) := by
  have hroom : 256 - found.length = 256 - (accepted value m).length := by
    rw [h.length_eq]
    omega
  rw [Collected, List.map_append, h, hmore, accepted_add, List.take_append, hroom]

/-- All that a sampler looks for: the first 256 accepted values. -/
def Full (value : ℕ → Option ℤ) (found : List Int32) : Prop :=
  found.length = 256 ∧ FirstAccepted value (found.map Int32.toInt)

theorem Collected.full (h : Collected value m found) (hlength : ¬found.length < 256) : Full value found := by
  refine ⟨by rw [h.length_eq] at hlength ⊢; omega, m, ?_⟩
  rw [h]
  exact List.take_prefix _ _

theorem Collected.not_lt (h : Collected value m found) (hn : 256 ≤ (accepted value n).length)
    (hle : n ≤ m) : ¬found.length < 256 := by
  have : accepted value n <+: accepted value m := accepted_prefix_of_le hle
  have := this.length_le
  rw [h.length_eq]
  omega

end Collected

section Uniform

variable {X : Xof 168} {input : Bytes} {m n fuel : ℕ} {s : X.State} {buf rest : Bytes}
  {found out : List Int32}

/-- **What one more buffer adds**: the values of its whole triples. The bytes behind them are what is read
next. -/
theorem collect_uniform (hr : X.Reads input (3 * m) s buf)
    (hc : Collected (uniformValue (X.stream input)) m found) :
    X.Reads input (3 * (m + buf.length / 3)) s (carry buf) ∧
      Collected (uniformValue (X.stream input)) (m + buf.length / 3)
        (found ++ acceptUniform (256 - found.length) buf) := by
  have hwhole : (buf.take (buf.length - buf.length % 3)).length = 3 * (buf.length / 3) := by
    rw [List.length_take]
    omega
  constructor
  · have hsplit : X.Reads input (3 * m) s (buf.take (buf.length - buf.length % 3) ++ carry buf) := by
      rwa [carry, List.take_append_drop]
    have hnext := hsplit.consume
    rwa [hwhole, ← Nat.mul_add] at hnext
  · have hvalues : accepted (fun k => uniformValue (X.stream input) (m + k)) (buf.length / 3) =
        accepted (uniformValue (byteAt buf)) (buf.length / 3) := by
      refine accepted_congr fun k hk => ?_
      rw [uniformValue_add]
      exact uniformValue_congr (fun i hi => hr.stream_eq_getD hi) hk
    refine hc.append ?_
    rw [map_acceptUniform, hvalues]

/-- **Further blocks**, however many, add what is missing to the first 256 values. -/
theorem full_of_moreUniform (hr : X.Reads input (3 * m) s rest)
    (hc : Collected (uniformValue (X.stream input)) m found)
    (h : moreUniform X fuel s rest found = some out) : Full (uniformValue (X.stream input)) out := by
  obtain ⟨⟨_, _, m, -, hout⟩, hlength⟩ := invariant_moreUniform (P := fun s rest found =>
    ∃ m, X.Reads input (3 * m) s rest ∧ Collected (uniformValue (X.stream input)) m found)
    (fun _ _ _ ⟨_, hr, hc⟩ => ⟨_, collect_uniform hr.fetch hc⟩) ⟨m, hr, hc⟩ h
  exact hout.full hlength

/-- A block holds 56 candidates or more, so that they are found if enough blocks may be fetched. -/
theorem isSome_moreUniform (hr : X.Reads input (3 * m) s rest)
    (hc : Collected (uniformValue (X.stream input)) m found)
    (hn : 256 ≤ (accepted (uniformValue (X.stream input)) n).length) (hle : n ≤ m + 56 * fuel) :
    (moreUniform X fuel s rest found).isSome := by
  induction fuel generalizing m s rest found with
  | zero =>
    rw [moreUniform, if_neg (hc.not_lt hn hle)]
    rfl
  | succ fuel ih =>
    rw [moreUniform]
    split
    · obtain ⟨hr', hc'⟩ := collect_uniform hr.fetch hc
      refine ih hr' hc' ?_
      rw [List.length_append, Vector.length_toList]
      omega
    · rfl

end Uniform

section Eta

variable {X : Xof 136} {input : Bytes} {p n fuel : ℕ} {s : X.State} {buf : Bytes} {found out : List Int32}

theorem collect_eta (hr : X.Reads input p s buf)
    (hc : Collected (etaValue (X.stream input)) (2 * p) found) :
    X.Reads input (p + buf.length) s [] ∧ Collected (etaValue (X.stream input)) (2 * (p + buf.length))
      (found ++ acceptEta (256 - found.length) (nibbles buf)) := by
  constructor
  · have hall : X.Reads input p s (buf ++ []) := by rwa [List.append_nil]
    exact hall.consume
  · have hvalues : accepted (fun k => etaValue (X.stream input) (2 * p + k)) (2 * buf.length) =
        accepted (etaValue (byteAt buf)) (2 * buf.length) := by
      refine accepted_congr fun k hk => ?_
      rw [etaValue_add]
      exact etaValue_congr (fun i hi => hr.stream_eq_getD hi) hk
    rw [Nat.mul_add]
    refine hc.append ?_
    rw [map_acceptEta, hvalues]

theorem full_of_moreEta (hr : X.Reads input p s [])
    (hc : Collected (etaValue (X.stream input)) (2 * p) found)
    (h : moreEta X fuel s found = some out) : Full (etaValue (X.stream input)) out := by
  obtain ⟨⟨_, p, -, hout⟩, hlength⟩ := invariant_moreEta (P := fun s found =>
    ∃ p, X.Reads input p s [] ∧ Collected (etaValue (X.stream input)) (2 * p) found)
    (fun _ _ ⟨_, hr, hc⟩ => ⟨_, collect_eta hr.fetch hc⟩) ⟨p, hr, hc⟩ h
  exact hout.full hlength

theorem isSome_moreEta (hr : X.Reads input p s [])
    (hc : Collected (etaValue (X.stream input)) (2 * p) found)
    (hn : 256 ≤ (accepted (etaValue (X.stream input)) n).length) (hle : n ≤ 2 * p + 272 * fuel) :
    (moreEta X fuel s found).isSome := by
  induction fuel generalizing p s found with
  | zero =>
    rw [moreEta, if_neg (hc.not_lt hn hle)]
    rfl
  | succ fuel ih =>
    rw [moreEta]
    split
    · obtain ⟨hr', hc'⟩ := collect_eta hr.fetch hc
      refine ih hr' hc' ?_
      rw [List.nil_append, Vector.length_toList]
      omega
    · rfl

end Eta

end Sampler

/-! ## Sampled polynomials -/

open Sampler

namespace Poly

variable {d : Domain}

/-- The numbers of a polynomial as integers. -/
def integers (p : Poly d) : List ℤ := List.ofFn fun j => (p.number j).toInt

theorem length_integers (p : Poly d) : p.integers.length = 256 := List.length_ofFn

theorem integers_injective : Function.Injective (integers : Poly d → List ℤ) := by
  intro p r h
  have hnumber := List.ofFn_injective h
  exact ext_number fun j => Int32.toInt_inj.1 (congrFun hnumber j)

theorem getElem_integers (p : Poly d) {j : ℕ} (hj : j < p.integers.length) :
    p.integers[j] = (p.number ⟨j, p.length_integers ▸ hj⟩).toInt :=
  List.getElem_ofFn _

theorem integers_ofList {l : List Int32} (h : l.length = 256) :
    (ofList l : Poly d).integers = l.map Int32.toInt := by
  refine List.ext_getElem (by rw [length_integers, List.length_map, h]) fun j hj hj' => ?_
  rw [List.length_map] at hj'
  rw [getElem_integers, number_ofList, List.getElem_map, List.getD_eq_getElem _ _ hj']

theorem exists_sample_iff {sample : ℕ → Option (Poly d)} {value : ℕ → Option ℤ}
    (hsound : ∀ k p, sample k = some p → FirstAccepted value p.integers)
    (hcomplete : ∀ n, 256 ≤ (accepted value n).length → (sample n).isSome) (p : Poly d) :
    (∃ k, sample k = some p) ↔ FirstAccepted value p.integers := by
  refine ⟨fun ⟨k, h⟩ => hsound k p h, fun h => ?_⟩
  obtain ⟨n, hn⟩ := h
  obtain ⟨r, hr⟩ := Option.isSome_iff_exists.1 (hcomplete n (p.length_integers ▸ hn.length_le))
  have heq : r.integers = p.integers :=
    (hsound n r hr).unique ⟨n, hn⟩ (by rw [length_integers, length_integers])
  exact ⟨n, hr.trans (congrArg some (integers_injective heq))⟩

section Uniform

variable {O : Oracle} {seed : Bytes} {nonce : UInt16}

theorem uniform_eq_map (O : Oracle) (seed : Bytes) (nonce : UInt16) : uniform O seed nonce =
    let r := O.shake128.read 5 (O.shake128.start (seed ++ Bytes.ofUInt16 nonce))
    (moreUniform O.shake128 O.patience r.2 (carry r.1) (acceptUniform 256 r.1)).map ofList := rfl

theorem collected_five (X : Xof 168) (input : Bytes) :
    X.Reads input (3 * 280) (X.read 5 (X.start input)).2 (carry (X.read 5 (X.start input)).1) ∧
      Collected (uniformValue (X.stream input)) 280 (acceptUniform 256 (X.read 5 (X.start input)).1) := by
  have hr := (Xof.Reads.start X input).read 5
  have h := collect_uniform (m := 0) hr (Collected.start _)
  rwa [List.nil_append, X.length_read] at h

theorem firstAccepted_uniform {p : Poly .transformed} (h : uniform O seed nonce = some p) :
    FirstAccepted (uniformValue (O.shake128.stream (seed ++ Bytes.ofUInt16 nonce))) p.integers := by
  rw [uniform_eq_map] at h
  obtain ⟨l, hl, rfl⟩ := Option.map_eq_some_iff.1 h
  obtain ⟨hr, hc⟩ := collected_five O.shake128 (seed ++ Bytes.ofUInt16 nonce)
  obtain ⟨hlength, hfirst⟩ := full_of_moreUniform hr hc hl
  rwa [integers_ofList hlength]

theorem isSome_uniform {n : ℕ} (hn : 256 ≤
    (accepted (uniformValue (O.shake128.stream (seed ++ Bytes.ofUInt16 nonce))) n).length)
    (hle : n ≤ O.patience) : (uniform O seed nonce).isSome := by
  obtain ⟨hr, hc⟩ := collected_five O.shake128 (seed ++ Bytes.ofUInt16 nonce)
  rw [uniform_eq_map, Option.isSome_map]
  exact isSome_moreUniform hr hc hn (by omega)

theorem uniformEta_eq_map (O : Oracle) (seed : Bytes) (nonce : UInt16) : uniformEta O seed nonce =
    let s := O.shake256.start (seed ++ Bytes.ofUInt16 nonce)
    (moreEta O.shake256 O.patience (O.shake256.next s)
      (acceptEta 256 (nibbles (O.shake256.block s).toList))).map ofList := rfl

theorem collected_one (X : Xof 136) (input : Bytes) :
    X.Reads input 136 (X.next (X.start input)) [] ∧ Collected (etaValue (X.stream input)) (2 * 136)
      (acceptEta 256 (nibbles (X.block (X.start input)).toList)) := by
  have hr := (Xof.Reads.start X input).fetch
  have h := collect_eta (p := 0) hr (Collected.start _)
  rwa [List.nil_append, Vector.length_toList] at h

theorem firstAccepted_uniformEta {p : Poly .plain} (h : uniformEta O seed nonce = some p) :
    FirstAccepted (etaValue (O.shake256.stream (seed ++ Bytes.ofUInt16 nonce))) p.integers := by
  rw [uniformEta_eq_map] at h
  obtain ⟨l, hl, rfl⟩ := Option.map_eq_some_iff.1 h
  obtain ⟨hr, hc⟩ := collected_one O.shake256 (seed ++ Bytes.ofUInt16 nonce)
  obtain ⟨hlength, hfirst⟩ := full_of_moreEta hr hc hl
  rwa [integers_ofList hlength]

theorem isSome_uniformEta {n : ℕ} (hn : 256 ≤
    (accepted (etaValue (O.shake256.stream (seed ++ Bytes.ofUInt16 nonce))) n).length)
    (hle : n ≤ O.patience) : (uniformEta O seed nonce).isSome := by
  obtain ⟨hr, hc⟩ := collected_one O.shake256 (seed ++ Bytes.ofUInt16 nonce)
  rw [uniformEta_eq_map, Option.isSome_map]
  exact isSome_moreEta hr hc hn (by omega)

end Uniform

end Poly

/-- Streams that open with a block of the largest byte. None of its candidates is accepted. -/
def Oracle.barren : Oracle where
  shake128 := Oracle.constant.shake128.behind 0xff
  shake256 := Oracle.constant.shake256.behind 0xff
  patience := 1

/-- **Matrix entries filter a stream.** On every stream, the sampler finds `p`, given enough blocks,
exactly if `p` lists the first 256 values below `q` among the numbers of 23 bits that the stream spells in
steps of three bytes; the blocks of its buffer, which is never left, do not show. A list and a buffer of
any lengths: the list is filled from the front with such values of the buffer, as many as there are or fit,
and keeps the rest. -/
theorem uniform_filters_stream (O : Oracle) (seed : Bytes) (nonce : UInt16) :
    Poly.checkedUniform O seed nonce = .ok (Poly.uniform O seed nonce) ∧
    (∀ p, (∃ patience, Poly.uniform { O with patience := patience } seed nonce = some p) ↔
      FirstAccepted (uniformValue (O.shake128.stream (seed ++ Bytes.ofUInt16 nonce))) p.integers) ∧
    (∀ p, Poly.uniform O seed nonce = some p →
      FirstAccepted (uniformValue (O.shake128.stream (seed ++ Bytes.ofUInt16 nonce))) p.integers) ∧
    ∀ (a : List Int32) (buf : Bytes), ∃ n out,
      scanUniform a 0 buf = .ok (n, out) ∧ fillUniform a buf = (n, out) ∧
        Filled (accepted (uniformValue (byteAt buf)) (buf.length / 3)) a n out := by
  refine ⟨Poly.checkedUniform_eq O seed nonce, fun p => ?_, fun p => Poly.firstAccepted_uniform,
    fun a buf => ?_⟩
  · exact Poly.exists_sample_iff
      (fun k p h => Poly.firstAccepted_uniform (O := { O with patience := k }) h)
      (fun n hn => Poly.isSome_uniform (O := { O with patience := n }) hn le_rfl) p
  · exact ⟨_, _, scanUniform_all a buf, rfl, filled_writeFront (map_acceptUniform a.length buf)⟩

theorem uniform_filters_stream_barren :
    Poly.uniform { Oracle.barren with patience := 0 } [] 0 = none ∧
      ∃ p, Poly.uniform .barren [] 0 = some p ∧
        FirstAccepted (uniformValue (Oracle.barren.shake128.stream [0, 0])) p.integers := by
  have hstops : (Poly.uniform .barren [] 0).isSome := by decide +kernel
  obtain ⟨p, hp⟩ := Option.isSome_iff_exists.1 hstops
  exact ⟨by decide +kernel, p, hp, (uniform_filters_stream .barren [] 0).2.2.1 p hp⟩

/-- **Short polynomials filter a stream.** On every stream, the sampler finds `p`, given enough blocks,
exactly if `p` lists 2 less the residue modulo 5 of the first 256 half bytes below 15. A list and a buffer
of any lengths: the list is filled from the front with such values of the buffer, as many as there are or
fit, and keeps the rest, although every half byte writes to it. -/
theorem uniformEta_filters_stream (O : Oracle) (seed : Bytes) (nonce : UInt16) :
    Poly.checkedUniformEta O seed nonce = .ok (Poly.uniformEta O seed nonce) ∧
    (∀ p, (∃ patience, Poly.uniformEta { O with patience := patience } seed nonce = some p) ↔
      FirstAccepted (etaValue (O.shake256.stream (seed ++ Bytes.ofUInt16 nonce))) p.integers) ∧
    (∀ p, Poly.uniformEta O seed nonce = some p →
      FirstAccepted (etaValue (O.shake256.stream (seed ++ Bytes.ofUInt16 nonce))) p.integers ∧
        p.Within (-2) 2) ∧
    ∀ (a : List Int32) (buf : Bytes), ∃ n out,
      scanEta a buf = .ok (n, out) ∧ fillEta a buf = (n, out) ∧
        Filled (accepted (etaValue (byteAt buf)) (2 * buf.length)) a n out := by
  refine ⟨Poly.checkedUniformEta_eq O seed nonce, fun p => ?_,
    fun p h => ⟨Poly.firstAccepted_uniformEta h, Poly.within_uniformEta h⟩, fun a buf => ?_⟩
  · exact Poly.exists_sample_iff
      (fun k p h => Poly.firstAccepted_uniformEta (O := { O with patience := k }) h)
      (fun n hn => Poly.isSome_uniformEta (O := { O with patience := n }) hn le_rfl) p
  · exact ⟨_, _, scanEta_eq a buf, rfl, filled_writeFront (map_acceptEta a.length buf)⟩

theorem uniformEta_filters_stream_barren :
    Poly.uniformEta { Oracle.barren with patience := 0 } [] 0 = none ∧
      ∃ p, Poly.uniformEta .barren [] 0 = some p ∧
        FirstAccepted (etaValue (Oracle.barren.shake256.stream [0, 0])) p.integers ∧
          p.Within (-2) 2 := by
  have hstops : (Poly.uniformEta .barren [] 0).isSome := by decide +kernel
  obtain ⟨p, hp⟩ := Option.isSome_iff_exists.1 hstops
  exact ⟨by decide +kernel, p, hp, (uniformEta_filters_stream .barren [] 0).2.2.1 p hp⟩

end LatticeSignature
