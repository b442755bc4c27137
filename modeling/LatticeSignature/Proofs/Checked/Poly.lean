import LatticeSignature.Proofs.Checked.Transform
import LatticeSignature.Proofs.PolyVec

/-!
# Checked polynomials and vectors

Operations on polynomials and vectors, number by number and entry by entry. Nothing is reduced
between two steps unless the protocol does so, and each operation does not fault on numbers in a
range that is wide enough for what it is given.

* `Poly.checkedAdd_eq`, …, `Poly.checkedUseHint_eq`: polynomials.
* **`PolyVec.checkedDot_eq`**: the seven products of a row and their sum.
* `Matrix.checkedMul_eq`, `PolyVec.checkedNormBelow_eq`, …: vectors.
-/

namespace LatticeSignature

open Checked Residue

variable {d : Domain}

/-! ## Polynomials -/

namespace Poly

def checkedMap {e : Domain} (f : Int32 → Checked Int32) (p : Poly d) : Checked (Poly e) := do
  let a ← each f p.coeffs
  return ⟨a⟩

def checkedZipWith (f : Int32 → Int32 → Checked Int32) (p r : Poly d) : Checked (Poly d) := do
  let a ← eachPair f p.coeffs r.coeffs
  return ⟨a⟩

def checkedAdd (p r : Poly d) : Checked (Poly d) := p.checkedZipWith Checked.add r

def checkedSub (p r : Poly d) : Checked (Poly d) := p.checkedZipWith Checked.sub r

def checkedReduce (p : Poly d) : Checked (Poly d) := p.checkedMap Residue.checkedReduce

def checkedLift (p : Poly d) : Checked (Poly d) := p.checkedMap Residue.checkedLift

def checkedShiftLeft (p : Poly d) : Checked (Poly d) := p.checkedMap (shl · 13)

def checkedMulMontgomery (p r : Poly .transformed) : Checked (Poly .transformed) :=
  p.checkedZipWith Residue.checkedMulMontgomery r

/-- Splits each coefficient in two. -/
def checkedSplit (f : Int32 → Checked HighLow) (p : Poly .plain) : Checked Parts := do
  let parts ← each f p.coeffs
  return ⟨⟨parts.map HighLow.high⟩, ⟨parts.map HighLow.low⟩⟩

def checkedPower2Round : Poly .plain → Checked Parts := checkedSplit Rounding.checkedPower2Round

def checkedDecompose : Poly .plain → Checked Parts := checkedSplit Rounding.checkedDecompose

/-- The hints for low and high parts, and their number. -/
def checkedMakeHint (low high : Poly .plain) : Checked (Poly .plain × ℕ) := do
  let hint ← low.checkedZipWith Rounding.checkedMakeHint high
  let count ← hint.coeffs.toList.foldlM (fun s c => do
    let n ← size c
    return s + n) 0
  return (hint, count)

def checkedUseHint (p hint : Poly .plain) : Checked (Poly .plain) :=
  p.checkedZipWith Rounding.checkedUseHint hint

/-- Whether the absolute value of a number leaves no room below a bound, as a bit. -/
def checkedExcess (bound c : Int32) : Checked UInt32 := do
  let t ← checkedMagnitude c
  let top ← Checked.sub bound 1
  let room ← Checked.sub top t
  return Rounding.signBit room

/-- Looks at every number, unless the bound is above `(q - 1) / 8`. -/
def checkedNormBelow (p : Poly d) (bound : Int32) : Checked Bool :=
  if 1047552 < bound then return false
  else do
    let exceeded ← p.coeffs.toList.foldlM (fun acc c => do
      let e ← checkedExcess bound c
      return acc ||| e) (0 : UInt32)
    return exceeded == 0

theorem exists_number {p : Poly d} {c : Int32} (hc : c ∈ p.coeffs.toList) : ∃ j, p.number j = c :=
  exists_get hc

section Operations

variable {p r : Poly d} {lo hi lo' hi' : ℤ}

theorem checkedMap_eq {e : Domain} {f : Int32 → Checked Int32} {g : Int32 → Int32}
    (h : ∀ j, f (p.number j) = .ok (g (p.number j))) :
    (p.checkedMap f : Checked (Poly e)) = .ok (p.map g) := by
  rw [checkedMap, bind_of_eq (each_eq h)]
  rfl

theorem checkedZipWith_eq {f : Int32 → Int32 → Checked Int32} {g : Int32 → Int32 → Int32}
    (h : ∀ j, f (p.number j) (r.number j) = .ok (g (p.number j) (r.number j))) :
    p.checkedZipWith f r = .ok (p.zipWith g r) := by
  rw [checkedZipWith, bind_of_eq (eachPair_eq h)]
  rfl

theorem checkedAdd_eq (hp : p.Within lo hi) (hr : r.Within lo' hi') (hlo : -2147483648 ≤ lo + lo')
    (hhi : hi + hi' ≤ 2147483647) : p.checkedAdd r = .ok (p.add r) := by
  refine checkedZipWith_eq fun j => ?_
  have h1 := hp j
  have h2 := hr j
  exact (add_eq rfl rfl (by linarith) (by linarith)).1

theorem checkedSub_eq (hp : p.Within lo hi) (hr : r.Within lo' hi') (hlo : -2147483648 ≤ lo - hi')
    (hhi : hi - lo' ≤ 2147483647) : p.checkedSub r = .ok (p.sub r) := by
  refine checkedZipWith_eq fun j => ?_
  have h1 := hp j
  have h2 := hr j
  exact (sub_eq rfl rfl (by linarith) (by linarith)).1

theorem checkedReduce_eq (hp : p.Within lo hi) (hhi : hi ≤ 2143289343) :
    p.checkedReduce = .ok p.reduce :=
  checkedMap_eq fun j => Residue.checkedReduce_eq ((hp j).2.trans hhi)

theorem checkedLift_eq (hp : p.Within lo hi) (hhi : hi < 2139103231) :
    p.checkedLift = .ok p.lift :=
  checkedMap_eq fun j => Residue.checkedLift_eq ((hp j).2.trans_lt hhi)

theorem checkedShiftLeft_eq (hp : p.Within 0 1023) : p.checkedShiftLeft = .ok p.shiftLeft :=
  checkedMap_eq fun j => (shl_thirteen_eq rfl (hp j).1 (hp j).2).1

theorem checkedExcess_eq {bound c : Int32} (hb : 0 ≤ bound.toInt) (h : -1073741824 ≤ c.toInt)
    (h' : c.toInt ≤ 1073741823) :
    checkedExcess bound c = .ok (Rounding.signBit (bound - 1 - magnitude c)) := by
  have hone : (1 : Int32).toInt = 1 := rfl
  have hhi := bound.toInt_lt
  norm_num at hhi
  have hm := toInt_magnitude h
  have hnonneg := abs_nonneg c.toInt
  have hsmall : |c.toInt| ≤ 1073741824 := abs_le.2 ⟨h, by linarith⟩
  obtain ⟨htop, vtop⟩ := sub_eq (a := bound) rfl hone (by linarith) (by linarith)
  obtain ⟨hroom, -⟩ := sub_eq vtop hm (by linarith) (by linarith)
  rw [checkedExcess, bind_of_eq (checkedMagnitude_eq h h'), bind_of_eq htop, bind_of_eq hroom]
  rfl

theorem checkedNormBelow_eq (hp : p.Within (-1073741824) 1073741823) {bound : Int32}
    (hb : 0 ≤ bound.toInt) : p.checkedNormBelow bound = .ok (p.normBelow bound) := by
  have hfold : p.coeffs.toList.foldlM (fun acc c => do
      let e ← checkedExcess bound c
      return acc ||| e) 0 =
        (.ok (p.coeffs.foldl (fun acc c => acc ||| Rounding.signBit (bound - 1 - magnitude c)) 0) :
          Checked UInt32) := by
    rw [← Vector.foldl_toList]
    refine foldlM_eq fun acc c hc => ?_
    obtain ⟨j, rfl⟩ := exists_number hc
    rw [bind_of_eq (checkedExcess_eq hb (hp j).1 (hp j).2)]
    rfl
  unfold checkedNormBelow normBelow
  split
  · next h =>
    rw [decide_eq_false (Int32.not_le.2 h), Bool.false_and]
    rfl
  · next h =>
    rw [bind_of_eq hfold, decide_eq_true (Int32.not_lt.1 h), Bool.true_and]
    rfl

end Operations

theorem checkedMulMontgomery_eq (p r : Poly .transformed) :
    p.checkedMulMontgomery r = .ok (p.mulMontgomery r) :=
  checkedZipWith_eq fun _ => Residue.checkedMulMontgomery_eq _ _

section Rounding

variable {p : Poly .plain}

theorem checkedSplit_eq {f : Int32 → Checked HighLow} {g : Int32 → HighLow}
    (h : ∀ j, f (p.number j) = .ok (g (p.number j))) :
    p.checkedSplit f = .ok ⟨p.map fun c => (g c).high, p.map fun c => (g c).low⟩ := by
  rw [checkedSplit, bind_of_eq (each_eq h), Vector.map_map, Vector.map_map]
  rfl

theorem checkedPower2Round_eq (hp : p.Within 0 8380416) :
    p.checkedPower2Round = .ok p.power2Round :=
  checkedSplit_eq fun j => Rounding.checkedPower2Round_eq (hp j).1 (hp j).2

theorem checkedDecompose_eq (hp : p.Within 0 8380416) : p.checkedDecompose = .ok p.decompose :=
  checkedSplit_eq fun j => Rounding.checkedDecompose_eq (hp j).1 (hp j).2

theorem checkedUseHint_eq (hp : p.Within 0 8380416) (hint : Poly .plain) :
    p.checkedUseHint hint = .ok (p.useHint hint) :=
  checkedZipWith_eq fun j => Rounding.checkedUseHint_eq (hp j).1 (hp j).2 _

theorem checkedMakeHint_eq {low : Poly .plain} (hlow : low.Within (-2147221759) 2147221759)
    (high : Poly .plain) :
    low.checkedMakeHint high = .ok (low.makeHint high, (low.makeHint high).total) := by
  have hhint : low.checkedZipWith Rounding.checkedMakeHint high = .ok (low.makeHint high) :=
    checkedZipWith_eq fun j => Rounding.checkedMakeHint_eq (hlow j).1 (hlow j).2 _
  have hcount : (low.makeHint high).coeffs.toList.foldlM (fun s c => do
      let n ← size c
      return s + n) 0 = (.ok (low.makeHint high).total : Checked ℕ) := by
    unfold total
    rw [← Vector.foldl_toList]
    refine foldlM_eq fun s c hc => ?_
    obtain ⟨j, rfl⟩ := exists_number hc
    rw [makeHint, number_zipWith, Rounding.makeHint_eq (hlow j).1 (hlow j).2]
    split <;> rfl
  rw [checkedMakeHint, bind_of_eq hhint, bind_of_eq hcount]
  rfl

end Rounding

end Poly

/-! ## Vectors -/

namespace PolyVec

variable {n : ℕ}

def checkedAdd (u v : PolyVec d n) : Checked (PolyVec d n) := eachPair Poly.checkedAdd u v

def checkedSub (u v : PolyVec d n) : Checked (PolyVec d n) := eachPair Poly.checkedSub u v

def checkedReduce (v : PolyVec d n) : Checked (PolyVec d n) := each Poly.checkedReduce v

def checkedLift (v : PolyVec d n) : Checked (PolyVec d n) := each Poly.checkedLift v

def checkedShiftLeft (v : PolyVec d n) : Checked (PolyVec d n) := each Poly.checkedShiftLeft v

def checkedTransform (v : PolyVec .plain n) : Checked (PolyVec .transformed n) :=
  each Poly.checkedTransform v

def checkedInverseTransform (v : PolyVec .transformed n) : Checked (PolyVec .plain n) :=
  each Poly.checkedInverseTransform v

def checkedScale (p : Poly .transformed) (v : PolyVec .transformed n) :
    Checked (PolyVec .transformed n) := each (Poly.checkedMulMontgomery p) v

/-- All entries are looked at. -/
def checkedNormBelow (v : PolyVec d n) (bound : Int32) : Checked Bool :=
  v.toList.foldlM (fun ok p => do
    let below ← p.checkedNormBelow bound
    return ok && below) true

/-- Adds the product of the entries at `i`. -/
def checkedAddProduct (u v : PolyVec .transformed n) (i : ℕ) (w : Poly .transformed) :
    Checked (Poly .transformed) := do
  let a ← get u i
  let b ← get v i
  let product ← a.checkedMulMontgomery b
  w.checkedAdd product

/-- The product of the first entries, to which those of the others are added. -/
def checkedDot (u v : PolyVec .transformed 7) : Checked (Poly .transformed) := do
  let a ← get u 0
  let b ← get v 0
  let w ← a.checkedMulMontgomery b
  loop (fun i => checkedAddProduct u v (i + 1)) 6 w

/-- Splits each entry in two. -/
def checkedSplit (f : Poly .plain → Checked Poly.Parts) (v : PolyVec .plain n) : Checked (Parts n) := do
  let parts ← each f v
  return ⟨parts.map Poly.Parts.high, parts.map Poly.Parts.low⟩

def checkedPower2Round : PolyVec .plain n → Checked (Parts n) := checkedSplit Poly.checkedPower2Round

def checkedDecompose : PolyVec .plain n → Checked (Parts n) := checkedSplit Poly.checkedDecompose

/-- The hints for low and high parts, and their number. -/
def checkedMakeHint (low high : PolyVec .plain n) : Checked (PolyVec .plain n × ℕ) := do
  let rows ← eachPair Poly.checkedMakeHint low high
  return (rows.map Prod.fst, rows.toList.foldl (fun s row => s + row.2) 0)

def checkedUseHint (v hint : PolyVec .plain n) : Checked (PolyVec .plain n) :=
  eachPair Poly.checkedUseHint v hint

section Operations

variable {u v : PolyVec d n} {lo hi lo' hi' : ℤ}

theorem checkedAdd_eq (hu : u.Within lo hi) (hv : v.Within lo' hi') (hlo : -2147483648 ≤ lo + lo')
    (hhi : hi + hi' ≤ 2147483647) : u.checkedAdd v = .ok (u.add v) :=
  eachPair_eq fun i => Poly.checkedAdd_eq (hu i) (hv i) hlo hhi

theorem checkedSub_eq (hu : u.Within lo hi) (hv : v.Within lo' hi') (hlo : -2147483648 ≤ lo - hi')
    (hhi : hi - lo' ≤ 2147483647) : u.checkedSub v = .ok (u.sub v) :=
  eachPair_eq fun i => Poly.checkedSub_eq (hu i) (hv i) hlo hhi

theorem checkedReduce_eq (hv : v.Within lo hi) (hhi : hi ≤ 2143289343) :
    v.checkedReduce = .ok v.reduce :=
  each_eq fun i => Poly.checkedReduce_eq (hv i) hhi

theorem checkedLift_eq (hv : v.Within lo hi) (hhi : hi < 2139103231) :
    v.checkedLift = .ok v.lift :=
  each_eq fun i => Poly.checkedLift_eq (hv i) hhi

theorem checkedShiftLeft_eq (hv : v.Within 0 1023) : v.checkedShiftLeft = .ok v.shiftLeft :=
  each_eq fun i => Poly.checkedShiftLeft_eq (hv i)

theorem checkedNormBelow_eq (hv : v.Within (-1073741824) 1073741823) {bound : Int32}
    (hb : 0 ≤ bound.toInt) : v.checkedNormBelow bound = .ok (v.normBelow bound) := by
  unfold normBelow
  rw [← Vector.foldl_toList]
  refine foldlM_eq fun ok p hp => ?_
  obtain ⟨i, rfl⟩ := exists_get hp
  rw [bind_of_eq (Poly.checkedNormBelow_eq (hv i) hb)]
  rfl

end Operations

theorem checkedTransform_eq {v : PolyVec .plain n} {B : ℤ} (hv : v.Within (-B) B) (hB : B ≤ 2080440319) :
    v.checkedTransform = .ok v.transform :=
  each_eq fun i => Poly.checkedTransform_eq (hv i) hB

theorem checkedInverseTransform_eq {v : PolyVec .transformed n} (hv : v.Within (-8380416) 8380416) :
    v.checkedInverseTransform = .ok v.inverseTransform :=
  each_eq fun i => Poly.checkedInverseTransform_eq (hv i)

theorem checkedScale_eq (p : Poly .transformed) (v : PolyVec .transformed n) :
    checkedScale p v = .ok (v.scale p) :=
  each_eq fun _ => Poly.checkedMulMontgomery_eq _ _

section Rounding

variable {v : PolyVec .plain n}

theorem checkedSplit_eq {f : Poly .plain → Checked Poly.Parts} {g : Poly .plain → Poly.Parts}
    (h : ∀ i, f (v.get i) = .ok (g (v.get i))) :
    checkedSplit f v = .ok ⟨(v.map g).map Poly.Parts.high, (v.map g).map Poly.Parts.low⟩ := by
  rw [checkedSplit, bind_of_eq (each_eq h)]
  rfl

theorem checkedPower2Round_eq (hv : v.Within 0 8380416) : checkedPower2Round v = .ok v.power2Round :=
  checkedSplit_eq fun i => Poly.checkedPower2Round_eq (hv i)

theorem checkedDecompose_eq (hv : v.Within 0 8380416) : checkedDecompose v = .ok v.decompose :=
  checkedSplit_eq fun i => Poly.checkedDecompose_eq (hv i)

theorem checkedUseHint_eq (hv : v.Within 0 8380416) (hint : PolyVec .plain n) :
    v.checkedUseHint hint = .ok (v.useHint hint) :=
  eachPair_eq fun i => Poly.checkedUseHint_eq (hv i) _

theorem checkedMakeHint_eq {low : PolyVec .plain n} (hlow : low.Within (-2147221759) 2147221759)
    (high : PolyVec .plain n) :
    low.checkedMakeHint high = .ok (low.makeHint high, (low.makeHint high).total) := by
  have hrows : eachPair Poly.checkedMakeHint low high =
      .ok ((low.makeHint high).map fun p => (p, p.total)) := by
    refine (eachPair_eq (g := fun p r => (p.makeHint r, (p.makeHint r).total)) fun i => ?_).trans ?_
    · exact Poly.checkedMakeHint_eq (hlow i) (high.get i)
    · exact congrArg Except.ok (Vector.ext fun i hi => by simp [makeHint])
  rw [checkedMakeHint, bind_of_eq hrows]
  refine congrArg Except.ok (Prod.ext ?_ ?_)
  · exact Vector.ext fun i hi => by simp
  · simp [total, Vector.toList_map, List.foldl_map, Vector.foldl_toList]

end Rounding

/-- **The seven products of a row and their sum** fit, where each product is bounded by `M`. -/
theorem checkedDot_eq {u v : PolyVec .transformed 7} {A B M : ℤ} (hu : u.Within (-A) A)
    (hv : v.Within (-B) B) (h : A * B + 17996808470921216 < 4294967296 * (M + 1)) (hM : 0 ≤ M)
    (hM' : 7 * M ≤ 2147483647) : checkedDot u v = .ok (dot u v) := by
  obtain ⟨products, hproducts⟩ : ∃ products : PolyVec .transformed 7,
      products = Vector.zipWith Poly.mulMontgomery u v := ⟨_, rfl⟩
  have hget (i : ℕ) (hi : i < 7) : products[i] = u[i].mulMontgomery v[i] := by
    subst hproducts
    exact Vector.getElem_zipWith hi
  have hproduct (i : ℕ) (hi : i < 7) : u[i].checkedMulMontgomery v[i] = .ok products[i] := by
    rw [hget]
    exact Poly.checkedMulMontgomery_eq _ _
  have hwithin : ∀ p ∈ products.toList, p.Within (-M) M := by
    intro p hp
    obtain ⟨i, rfl⟩ := exists_get hp
    rw [show products.get i = (u.get i).mulMontgomery (v.get i) from hget i i.isLt]
    exact Poly.within_mulMontgomery (hu i) (hv i) h
  have hzero : (0 : Poly .transformed).Within (-0) 0 := fun j => by simp
  -- after `k` rounds `w` is the sum of the first `k + 1` products
  have hloop : loop (fun i => checkedAddProduct u v (i + 1)) 6 ((products.toList.take 1).foldl Poly.add 0) =
      .ok ((products.toList.take 7).foldl Poly.add 0) := by
    refine loop_eq (fun k => (products.toList.take (k + 1)).foldl Poly.add 0) fun k hk => ?_
    have hk' : k + 1 < 7 := by omega
    have hlength : ((products.toList.take (k + 1)).length : ℤ) ≤ 6 := by simp; omega
    have hle : ((products.toList.take (k + 1)).length : ℤ) * M ≤ 6 * M := by gcongr
    have hsmall : 0 + ((products.toList.take (k + 1)).length : ℤ) * M ≤ 2147483647 := by linarith
    have hsum := (element_foldl_add (products.toList.take (k + 1)) 0 0
      (fun p hp => hwithin p (List.mem_of_mem_take hp)) hzero hM hsmall).2
    have hnext : products.toList.take (k + 1 + 1) = products.toList.take (k + 1) ++ [products[k + 1]] :=
      List.take_succ_eq_append_getElem (Vector.length_toList.symm ▸ hk')
    unfold checkedAddProduct
    rw [bind_of_eq (get_eq u hk'), bind_of_eq (get_eq v hk'), bind_of_eq (hproduct (k + 1) hk'),
      hnext, List.foldl_append]
    exact Poly.checkedAdd_eq hsum (hwithin _ (by simp)) (by linarith) (by linarith)
  have hfirst : (products.toList.take 1).foldl Poly.add 0 = products[0] := by
    rw [List.take_succ_eq_append_getElem (by simp)]
    exact Poly.ext_number fun j => by simp [Poly.add]
  have hall : products.toList.take 7 = products.toList := List.take_of_length_le (by simp)
  rw [hfirst, hall, Vector.foldl_toList] at hloop
  unfold checkedDot dot
  rw [bind_of_eq (get_eq u (by norm_num)), bind_of_eq (get_eq v (by norm_num)),
    bind_of_eq (hproduct 0 (by norm_num)), ← hproducts]
  exact hloop

end PolyVec

/-- The product with a vector, row by row. -/
def Matrix.checkedMul (A : Matrix) (v : PolyVec .transformed 7) : Checked (PolyVec .transformed 8) :=
  each (fun row => PolyVec.checkedDot row v) A

theorem Matrix.checkedMul_eq {A : Matrix} {v : PolyVec .transformed 7} {B : ℤ}
    (hA : A.Within 0 8380416) (hv : v.Within (-B) B) (hB : B ≤ 2147483647) :
    A.checkedMul v = .ok (A.mul v) :=
  each_eq fun i => PolyVec.checkedDot_eq (M := 8380416) ((hA i).mono (by norm_num) le_rfl) hv (by linarith)
    (by norm_num) (by norm_num)

end LatticeSignature
