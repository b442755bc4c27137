import LatticeSignature.Poly

/-!
# The number-theoretic transform

`X^256 + 1` splits over `ℤ_q` into linear factors, and the transform evaluates a polynomial at all
256 roots. It runs in eight layers of butterflies: layer `s` combines the numbers at distance
`2 ^ s`, with one power of the root of unity for each block of `2 ^ (s + 1)` numbers. Sums and
differences are not reduced; only the products with a power are.

* `zetas`: the powers of the root of unity, in bit-reversed order and Montgomery form.
* `forwardLayer`, `inverseLayer`: one layer in each direction, number by number.
* `Poly.transform`: coefficients to values, in bit-reversed order of the roots.
* `Poly.inverseTransform`: values to coefficients, times `2 ^ 32`.
-/

namespace LatticeSignature

open Residue

namespace Transform

set_option maxRecDepth 2000 in
/-- Powers of the root of unity 1753: entry `k` represents `2 ^ 32` times its power with exponent
the bit reversal of `k`. Entry 0 is not used. -/
def zetas : Vector Int32 256 :=
  #v[0, 25847, -2608894, -518909, 237124, -777960, -876248, 466468, 1826347, 2353451, -359251,
    -2091905, 3119733, -2884855, 3111497, 2680103, 2725464, 1024112, -1079900, 3585928, -549488,
    -1119584, 2619752, -2108549, -2118186, -3859737, -1399561, -3277672, 1757237, -19422, 4010497,
    280005, 2706023, 95776, 3077325, 3530437, -1661693, -3592148, -2537516, 3915439, -3861115,
    -3043716, 3574422, -2867647, 3539968, -300467, 2348700, -539299, -1699267, -1643818, 3505694,
    -3821735, 3507263, -2140649, -1600420, 3699596, 811944, 531354, 954230, 3881043, 3900724,
    -2556880, 2071892, -2797779, -3930395, -1528703, -3677745, -3041255, -1452451, 3475950, 2176455,
    -1585221, -1257611, 1939314, -4083598, -1000202, -3190144, -3157330, -3632928, 126922, 3412210,
    -983419, 2147896, 2715295, -2967645, -3693493, -411027, -2477047, -671102, -1228525, -22981,
    -1308169, -381987, 1349076, 1852771, -1430430, -3343383, 264944, 508951, 3097992, 44288,
    -1100098, 904516, 3958618, -3724342, -8578, 1653064, -3249728, 2389356, -210977, 759969,
    -1316856, 189548, -3553272, 3159746, -1851402, -2409325, -177440, 1315589, 1341330, 1285669,
    -1584928, -812732, -1439742, -3019102, -3881060, -3628969, 3839961, 2091667, 3407706, 2316500,
    3817976, -3342478, 2244091, -2446433, -3562462, 266997, 2434439, -1235728, 3513181, -3520352,
    -3759364, -1197226, -3193378, 900702, 1859098, 909542, 819034, 495491, -1613174, -43260,
    -522500, -655327, -3122442, 2031748, 3207046, -3556995, -525098, -768622, -3595838, 342297,
    286988, -2437823, 4108315, 3437287, -3342277, 1735879, 203044, 2842341, 2691481, -2590150,
    1265009, 4055324, 1247620, 2486353, 1595974, -3767016, 1250494, 2635921, -3548272, -2994039,
    1869119, 1903435, -1050970, -1333058, 1237275, -3318210, -1430225, -451100, 1312455, 3306115,
    -1962642, -1279661, 1917081, -2546312, -1374803, 1500165, 777191, 2235880, 3406031, -542412,
    -2831860, -1671176, -1846953, -2584293, -3724270, 594136, -3776993, -2013608, 2432395, 2454455,
    -164721, 1957272, 3369112, 185531, -1207385, -3183426, 162844, 1616392, 3014001, 810149,
    1652634, -3694233, -1799107, -3038916, 3523897, 3866901, 269760, 2213111, -975884, 1717735,
    472078, -426683, 1723600, -1803090, 1910376, -1667432, -1104333, -260646, -3833893, -2939036,
    -2235985, -420899, -2286327, 183443, -976891, 1612842, -3545687, -554416, 3919660, -48306,
    -1362209, 3937738, 1400424, -846154, 1976782]

/-! ## Positions within a layer -/

/-- A number in the lower half of its block has a partner in the upper half. -/
theorem add_lt (s : Fin 8) (i : Fin 256) (h : i.val % (1 <<< (s.val + 1)) < 1 <<< s.val) :
    i.val + (1 <<< s.val) < 256 := by
  obtain ⟨s, hs⟩ := s
  obtain rfl | rfl | rfl | rfl | rfl | rfl | rfl | rfl : s = 0 ∨ s = 1 ∨ s = 2 ∨ s = 3 ∨ s = 4 ∨
    s = 5 ∨ s = 6 ∨ s = 7 := by omega
  all_goals simp at h ⊢; omega

/-- A number in the upper half of its block has a partner in the lower half. -/
theorem sub_lt (i : Fin 256) (d : Nat) : i.val - d < 256 :=
  Nat.lt_of_le_of_lt (Nat.sub_le _ _) i.isLt

/-- The blocks of layer `s` take the powers from entry `2 ^ (7 - s)` on. -/
theorem root_lt (s : Fin 8) (i : Fin 256) :
    (1 <<< (7 - s.val)) + i.val / (1 <<< (s.val + 1)) < 256 := by
  obtain ⟨s, hs⟩ := s
  obtain rfl | rfl | rfl | rfl | rfl | rfl | rfl | rfl : s = 0 ∨ s = 1 ∨ s = 2 ∨ s = 3 ∨ s = 4 ∨
    s = 5 ∨ s = 6 ∨ s = 7 := by omega
  all_goals simp; omega

/-- The blocks of the inverse layer `s` take the same powers from the other end. -/
theorem rootFromEnd_lt (s : Fin 8) (i : Fin 256) :
    (1 <<< (8 - s.val)) - 1 - i.val / (1 <<< (s.val + 1)) < 256 := by
  obtain ⟨s, hs⟩ := s
  obtain rfl | rfl | rfl | rfl | rfl | rfl | rfl | rfl : s = 0 ∨ s = 1 ∨ s = 2 ∨ s = 3 ∨ s = 4 ∨
    s = 5 ∨ s = 6 ∨ s = 7 := by omega
  all_goals simp; omega

/-! ## Layers -/

/-- Layer `s` of the transform: in each block, the product of the upper half with the power that
belongs to the block is added to the lower half and subtracted from it. -/
def forwardLayer (s : Fin 8) (a : Vector Int32 256) : Vector Int32 256 :=
  let distance := 1 <<< s.val
  let width := 1 <<< (s.val + 1)
  let first := 1 <<< (7 - s.val)
  .ofFn fun i =>
    let zeta := zetas.get ⟨first + i.val / width, root_lt s i⟩
    if h : i.val % width < distance then
      a[i] + mulMontgomery zeta (a.get ⟨i.val + distance, add_lt s i h⟩)
    else
      a.get ⟨i.val - distance, sub_lt i distance⟩ - mulMontgomery zeta a[i]

/-- Layer `s` of the inverse: in each block, the halves are added for the lower half, and their
difference times the negated power that belongs to the block becomes the upper half. -/
def inverseLayer (s : Fin 8) (a : Vector Int32 256) : Vector Int32 256 :=
  let distance := 1 <<< s.val
  let width := 1 <<< (s.val + 1)
  let last := (1 <<< (8 - s.val)) - 1
  .ofFn fun i =>
    if h : i.val % width < distance then
      a[i] + a.get ⟨i.val + distance, add_lt s i h⟩
    else
      let zeta := zetas.get ⟨last - i.val / width, rootFromEnd_lt s i⟩
      mulMontgomery (-zeta) (a.get ⟨i.val - distance, sub_lt i distance⟩ - a[i])

/-- Layers `s - 1` down to 0. -/
def forwardFrom : (s : Nat) → s ≤ 8 → Vector Int32 256 → Vector Int32 256
  | 0, _, a => a
  | s + 1, h, a => forwardFrom s (by omega) (forwardLayer ⟨s, h⟩ a)

/-- Layers 0 up to `s - 1` of the inverse. -/
def inverseUpTo : (s : Nat) → s ≤ 8 → Vector Int32 256 → Vector Int32 256
  | 0, _, a => a
  | s + 1, h, a => inverseLayer ⟨s, h⟩ (inverseUpTo s (by omega) a)

/-- Represents `2 ^ 64 / 256`: the inverse divides by 256, and its last Montgomery product leaves
a factor `2 ^ 32`. -/
def inverseScale : Int32 := 41978

end Transform

namespace Poly

open Transform

/-- The values of a polynomial at the roots. -/
def transform (p : Poly .plain) : Poly .transformed :=
  ⟨forwardFrom 8 (Nat.le_refl 8) p.coeffs⟩

/-- The coefficients, times `2 ^ 32`, of the polynomial with the given values. -/
def inverseTransform (p : Poly .transformed) : Poly .plain :=
  ⟨(inverseUpTo 8 (Nat.le_refl 8) p.coeffs).map (Residue.mulMontgomery inverseScale)⟩

/-- The product of two polynomials with coefficients in `[0, q)`, through the transform. The factor
`2⁻³²` of the pointwise product and the factor `2 ^ 32` of the inverse cancel. -/
def mul (p r : Poly .plain) : Poly .plain :=
  ((p.transform.mulMontgomery r.transform).inverseTransform.reduce).lift

end Poly

end LatticeSignature
