import Stdx.Foundation.Butterfly
import Stdx.Foundation.Chunks

/-!
# Arithmetic of the ML-KEM ring

Coefficients are `i16`, held as integers; every `as i16` of the source is
`asI16`.  Products and sums of two coefficients fit the source's `i32`.
-/

namespace Stdx.MlKem

open Stdx.Foundation

def N : Nat := 256
def Q : Int := 3329
def QINV : Int := -3327
def MONT_SQUARED_DIV_N : Int := 1441

def ZETAS : List Int := [
  -1044, -758, -359, -1517, 1493, 1422, 287, 202, -171, 622, 1577, 182, 962,
  -1202, -1474, 1468, 573, -1325, 264, 383, -829, 1458, -1602, -130, -681, 1017,
  732, 608, -1542, 411, -205, -1571, 1223, 652, -552, 1015, -1293, 1491, -282,
  -1544, 516, -8, -320, -666, -1618, -1162, 126, 1469, -853, -90, -271, 830, 107,
  -1421, -247, -951, -398, 961, -1508, -725, 448, -1065, 677, -1275, -1103, 430,
  555, 843, -1251, 871, 1550, 105, 422, 587, 177, -235, -291, -460, 1574, 1653,
  -246, 778, 1159, -147, -777, 1483, -602, 1119, -1590, 644, -872, 349, 418, 329,
  -156, -75, 817, 1097, 603, 610, 1322, -1285, -1465, 384, -1215, -136, 1218,
  -1335, -874, 220, -1187, -1659, -1185, -1530, -1278, 794, -1510, -854, -870,
  478, -108, -308, 996, 991, 958, -1460, 1522, 1628]

def zeta (k : Nat) : Int := ZETAS.getD k 0

/-! ## Coefficients -/

/-- The `as i16` cast. -/
@[grind =]
def asI16 (a : Int) : Int := a.bmod (2 ^ 16)

def montgomeryReduce (a : Int) : Int :=
  let t := asI16 (asI16 a * QINV)
  asI16 ((a - t * Q) >>> (16 : Nat))

def fqmul (a b : Int) : Int := montgomeryReduce (a * b)

def barrettReduce (a : Int) : Int :=
  let V : Int := (((1 : Int) <<< (26 : Nat)) + Q / 2) / Q
  let t := ((V * a + ((1 : Int) <<< (25 : Nat))) >>> (26 : Nat)) * Q
  asI16 (a - t)

def basemul (a0 a1 b0 b1 zeta : Int) : Int × Int :=
  (asI16 (fqmul (fqmul a1 b1) zeta + fqmul a0 b0),
   asI16 (fqmul a0 b1 + fqmul a1 b0))

/-! ## Polynomials -/

structure Poly where
  coeffs : List Int
  length_eq : coeffs.length = N
deriving DecidableEq

namespace Poly

def coeff (p : Poly) (i : Nat) : Int := p.coeffs.getD i 0

/-- `Poly::default()` -/
def zero : Poly := ⟨List.replicate N 0, by simp⟩

def map (f : Int → Int) (p : Poly) : Poly :=
  ⟨p.coeffs.map f, by rw [List.length_map, p.length_eq]⟩

def zipWith (f : Int → Int → Int) (p q : Poly) : Poly :=
  ⟨List.zipWith f p.coeffs q.coeffs, by
    rw [List.length_zipWith, p.length_eq, q.length_eq, Nat.min_self]⟩

def ofChunks (m count : Nat) (chunk : Nat → List Int) (hN : m * count = N)
    (h : ∀ i, i < count → (chunk i).length = m) : Poly :=
  ⟨Foundation.ofChunks count chunk, by rw [length_ofChunks h, hN]⟩

end Poly

def polyReduce (poly : Poly) : Poly := poly.map barrettReduce

def polyTomont (poly : Poly) : Poly := poly.map fun c => montgomeryReduce (c * 1353)

def polyAdd (left right : Poly) : Poly := left.zipWith (fun a b => asI16 (a + b)) right

def polySub (left right : Poly) : Poly := left.zipWith (fun a b => asI16 (a - b)) right

/-! ## Transforms -/

def nttButterfly (zeta u v : Int) : Int × Int :=
  let t := fqmul zeta v
  (asI16 (u + t), asI16 (u - t))

def invnttButterfly (zeta u v : Int) : Int × Int :=
  (barrettReduce (asI16 (u + v)), fqmul zeta (asI16 (v - u)))

/-- The variables `len` and `k` of a transform and its array. -/
structure LayerState where
  len : Nat
  k : Nat
  r : List Int

def nttLayer (s : LayerState) : LayerState :=
  let pass := blockPass N s.len (fun k => k + 1)
    (fun k => butterflies (nttButterfly (zeta k)) s.len) s.k s.r
  ⟨s.len >>> 1, pass.1, pass.2⟩

def ntt (r : List Int) : List Int :=
  (whileLoop (fun s => decide (2 ≤ s.len)) nttLayer N ⟨128, 1, r⟩).r

def invnttLayer (s : LayerState) : LayerState :=
  let pass := blockPass N s.len (fun k => k - 1)
    (fun k => butterflies (invnttButterfly (zeta k)) s.len) s.k s.r
  ⟨s.len <<< 1, pass.1, pass.2⟩

def invntt (r : List Int) : List Int :=
  (whileLoop (fun s => decide (s.len ≤ 128)) invnttLayer N ⟨2, 127, r⟩).r.map
    fun c => fqmul c MONT_SQUARED_DIV_N

theorem length_nttLayer (s : LayerState) : (nttLayer s).r.length = s.r.length := by
  simp only [nttLayer]
  exact length_blockPass _ _ _ (fun k start r => length_butterflies _ _ start r) _ _

theorem length_invnttLayer (s : LayerState) :
    (invnttLayer s).r.length = s.r.length := by
  simp only [invnttLayer]
  exact length_blockPass _ _ _ (fun k start r => length_butterflies _ _ start r) _ _

theorem length_ntt (r : List Int) : (ntt r).length = r.length := by
  unfold ntt
  generalize N = fuel
  exact whileLoop_preserves (P := fun s : LayerState => s.r.length = r.length)
    (fun s hs => (length_nttLayer s).trans hs) fuel rfl

theorem length_invntt (r : List Int) : (invntt r).length = r.length := by
  unfold invntt
  rw [List.length_map]
  generalize N = fuel
  exact whileLoop_preserves (P := fun s : LayerState => s.r.length = r.length)
    (fun s hs => (length_invnttLayer s).trans hs) fuel rfl

def polyNtt (poly : Poly) : Poly :=
  polyReduce ⟨ntt poly.coeffs, (length_ntt _).trans poly.length_eq⟩

def polyInvnttTomont (poly : Poly) : Poly :=
  ⟨invntt poly.coeffs, (length_invntt _).trans poly.length_eq⟩

def polyBasemulMontgomery (a b : Poly) : Poly :=
  .ofChunks 4 (N / 4) (fun i =>
    let r0 := basemul (a.coeff (4 * i)) (a.coeff (4 * i + 1))
      (b.coeff (4 * i)) (b.coeff (4 * i + 1)) (zeta (64 + i))
    let r1 := basemul (a.coeff (4 * i + 2)) (a.coeff (4 * i + 3))
      (b.coeff (4 * i + 2)) (b.coeff (4 * i + 3)) (-zeta (64 + i))
    [r0.1, r0.2, r1.1, r1.2]) (by decide) fun _ _ => rfl

/-! ## Vectors -/

structure PolyVec (K : Nat) where
  vec : List Poly
  length_eq : vec.length = K
deriving DecidableEq

namespace PolyVec

variable {K : Nat}

def get (v : PolyVec K) (i : Nat) : Poly := v.vec.getD i .zero

def ofFn (K : Nat) (f : Nat → Poly) : PolyVec K :=
  ⟨(List.range K).map f, by simp⟩

def map (f : Poly → Poly) (v : PolyVec K) : PolyVec K :=
  ⟨v.vec.map f, by rw [List.length_map, v.length_eq]⟩

def zipWith (f : Poly → Poly → Poly) (v w : PolyVec K) : PolyVec K :=
  ⟨List.zipWith f v.vec w.vec, by
    rw [List.length_zipWith, v.length_eq, w.length_eq, Nat.min_self]⟩

end PolyVec

variable {K : Nat}

def polyvecNtt (v : PolyVec K) : PolyVec K := v.map polyNtt

def polyvecInvnttTomont (v : PolyVec K) : PolyVec K := v.map polyInvnttTomont

def polyvecReduce (v : PolyVec K) : PolyVec K := v.map polyReduce

def polyvecAdd (left right : PolyVec K) : PolyVec K := left.zipWith polyAdd right

def polyvecBasemulAccMontgomery (a b : PolyVec K) : Poly :=
  polyReduce (forRange 1 (K - 1)
    (fun i out => polyAdd out (polyBasemulMontgomery (a.get i) (b.get i)))
    (polyBasemulMontgomery (a.get 0) (b.get 0)))

end Stdx.MlKem
