import Stdx.Foundation.Butterfly
import Stdx.Foundation.Chunks

/-!
# Arithmetic of the ML-DSA ring

Field elements are `u32` in Montgomery form, held as naturals with the wrapping of
the source written out.  The transforms are the portable ones; the vector kernels
the crate dispatches to where the target has them are not modelled.
-/

namespace Stdx.MlDsa

open Stdx.Foundation

def N : Nat := 256
def Q : Nat := 8380417
def D : Nat := 13
def ONE : Nat := 4193792
def MINUS_ONE : Nat := 4186625
def RR : Nat := 2365951
def QINV : Nat := 4236238847
def N_INV : Nat := 16382

def ZETAS : List Nat := [
  4193792, 25847, 5771523, 7861508, 237124, 7602457, 7504169, 466468, 1826347,
  2353451, 8021166, 6288512, 3119733, 5495562, 3111497, 2680103, 2725464, 1024112,
  7300517, 3585928, 7830929, 7260833, 2619752, 6271868, 6262231, 4520680, 6980856,
  5102745, 1757237, 8360995, 4010497, 280005, 2706023, 95776, 3077325, 3530437,
  6718724, 4788269, 5842901, 3915439, 4519302, 5336701, 3574422, 5512770, 3539968,
  8079950, 2348700, 7841118, 6681150, 6736599, 3505694, 4558682, 3507263, 6239768,
  6779997, 3699596, 811944, 531354, 954230, 3881043, 3900724, 5823537, 2071892,
  5582638, 4450022, 6851714, 4702672, 5339162, 6927966, 3475950, 2176455, 6795196,
  7122806, 1939314, 4296819, 7380215, 5190273, 5223087, 4747489, 126922, 3412210,
  7396998, 2147896, 2715295, 5412772, 4686924, 7969390, 5903370, 7709315, 7151892,
  8357436, 7072248, 7998430, 1349076, 1852771, 6949987, 5037034, 264944, 508951,
  3097992, 44288, 7280319, 904516, 3958618, 4656075, 8371839, 1653064, 5130689,
  2389356, 8169440, 759969, 7063561, 189548, 4827145, 3159746, 6529015, 5971092,
  8202977, 1315589, 1341330, 1285669, 6795489, 7567685, 6940675, 5361315, 4499357,
  4751448, 3839961, 2091667, 3407706, 2316500, 3817976, 5037939, 2244091, 5933984,
  4817955, 266997, 2434439, 7144689, 3513181, 4860065, 4621053, 7183191, 5187039,
  900702, 1859098, 909542, 819034, 495491, 6767243, 8337157, 7857917, 7725090,
  5257975, 2031748, 3207046, 4823422, 7855319, 7611795, 4784579, 342297, 286988,
  5942594, 4108315, 3437287, 5038140, 1735879, 203044, 2842341, 2691481, 5790267,
  1265009, 4055324, 1247620, 2486353, 1595974, 4613401, 1250494, 2635921, 4832145,
  5386378, 1869119, 1903435, 7329447, 7047359, 1237275, 5062207, 6950192, 7929317,
  1312455, 3306115, 6417775, 7100756, 1917081, 5834105, 7005614, 1500165, 777191,
  2235880, 3406031, 7838005, 5548557, 6709241, 6533464, 5796124, 4656147, 594136,
  4603424, 6366809, 2432395, 2454455, 8215696, 1957272, 3369112, 185531, 7173032,
  5196991, 162844, 1616392, 3014001, 810149, 1652634, 4686184, 6581310, 5341501,
  3523897, 3866901, 269760, 2213111, 7404533, 1717735, 472078, 7953734, 1723600,
  6577327, 1910376, 6712985, 7276084, 8119771, 4546524, 5441381, 6144432, 7959518,
  6094090, 183443, 7403526, 1612842, 4834730, 7826001, 3919660, 8332111, 7018208,
  3937738, 1400424, 7534263, 1976782]

def zeta (m : Nat) : Nat := ZETAS.getD m 0

/-! ## Words -/

def wrappingAdd (a b : Nat) : Nat := (a + b) % 2 ^ 32

def wrappingSub (a b : Nat) : Nat := (a + (2 ^ 32 - b % 2 ^ 32)) % 2 ^ 32

/-- `((t as i32) >> 31) as u32` -/
def signMask (t : Nat) : Nat := if t < 2 ^ 31 then 0 else 2 ^ 32 - 1

/-- `(mask & a) | (!mask & b)` -/
def select (mask a b : Nat) : Nat := (mask &&& a) ||| ((2 ^ 32 - 1 - mask) &&& b)

/-- `(mask & a) | (!mask & b)` with the mask `t >> 31` of an `i32`. -/
def selectNeg (t a b : Int) : Int := if t >>> (31 : Nat) = -1 then a else b

/-! ## Field elements -/

def fieldReduceOnce (x : Nat) : Nat :=
  let t := wrappingSub x Q
  wrappingAdd t (Q &&& signMask t)

def fieldMontgomeryReduce (x : Nat) : Nat :=
  let t := (x % 2 ^ 32 * QINV) % 2 ^ 32
  let u := (x + t * Q) >>> 32
  fieldReduceOnce (u % 2 ^ 32)

def fieldMontgomeryMul (a b : Nat) : Nat := fieldMontgomeryReduce (a * b)

def fieldToMontgomery (a : Nat) : Nat := fieldMontgomeryMul a RR

def fieldFromMontgomery (a : Nat) : Nat := fieldMontgomeryReduce a

def fieldAdd (a b : Nat) : Nat := fieldReduceOnce (wrappingAdd a b)

def fieldSub (a b : Nat) : Nat := fieldReduceOnce (wrappingAdd (wrappingSub a b) Q)

def fieldSubToMontgomery (a b : Nat) : Nat :=
  let x := wrappingAdd (wrappingSub a b) Q
  fieldMontgomeryMul x RR

def fieldInfinityNorm (r : Nat) : Nat :=
  let x := fieldFromMontgomery r
  let qMinusX := Q - x
  let halfQ := Q / 2
  let mask := signMask (wrappingSub halfQ x)
  select mask qMinusX x

def fieldCenteredMod (r : Nat) : Int :=
  let x : Int := fieldFromMontgomery r
  let halfQ : Int := Q / 2
  selectNeg (halfQ - x) (x - Q) x

/-! ## Rounding -/

def power2round (r : Nat) : Nat × Nat :=
  let rr := fieldFromMontgomery r
  let r1 := (rr + (1 <<< 12) - 1) >>> 13
  let r0 := fieldSubToMontgomery rr (r1 <<< 13)
  (r1, r0)

def highbits32 (x : Nat) : Nat :=
  let r1 := (x + 127) >>> 7
  let r1 := (r1 * 1025 + (1 <<< 21)) >>> 22
  r1 &&& 0b1111

def highbits88 (x : Nat) : Nat :=
  let r1 := (x + 127) >>> 7
  let r1 := (r1 * 11275 + (1 <<< 23)) >>> 24
  let d := r1 ^^^ 44
  let notEq := (d ||| wrappingSub 0 d) >>> 31
  r1 * notEq

def highbits (x gamma2Den : Nat) : Nat :=
  match gamma2Den with
  | 32 => highbits32 x
  | 88 => highbits88 x
  | _ => 0

def decomposeWith (highbitsOf : Nat → Nat) (den : Int) (r : Nat) : Nat × Int :=
  let x := fieldFromMontgomery r
  let r1 := highbitsOf x
  let r0 : Int := x - r1 * 2 * (Q - 1) / den
  let halfQ : Int := Q / 2
  (r1, selectNeg (halfQ - r0) (r0 - Q) r0)

def decompose32 : Nat → Nat × Int := decomposeWith highbits32 32
def decompose88 : Nat → Nat × Int := decomposeWith highbits88 88

def decompose (r gamma2Den : Nat) : Nat × Int :=
  match gamma2Den with
  | 32 => decompose32 r
  | 88 => decompose88 r
  | _ => (0, 0)

def makeHintWith (highbitsOf : Nat → Nat) (ct0 w cs2 : Nat) : Nat :=
  let rPlusZ := fieldSub w cs2
  let v1 := highbitsOf (fieldFromMontgomery rPlusZ)
  let r := fieldAdd rPlusZ ct0
  let r1 := highbitsOf (fieldFromMontgomery r)
  if v1 ≠ r1 then 1 else 0

def makeHint32 : Nat → Nat → Nat → Nat := makeHintWith highbits32
def makeHint88 : Nat → Nat → Nat → Nat := makeHintWith highbits88

def makeHint (ct0 w cs2 gamma2Den : Nat) : Nat :=
  match gamma2Den with
  | 32 => makeHint32 ct0 w cs2
  | 88 => makeHint88 ct0 w cs2
  | _ => 0

def useHint32 (r hint : Nat) : Nat :=
  let (r1, r0) := decompose32 r
  if hint = 0 then r1
  else
    -- `!(r0.wrapping_sub(1) >> 31) as u8`
    let r0Gt0 := if (r0 - 1) >>> (31 : Nat) = -1 then 0 else 0xff
    let r1Plus := (r1 + 1) % 256 &&& 0x0f
    let r1Minus := (r1 + 255) % 256 &&& 0x0f
    (r0Gt0 &&& r1Plus) ||| ((0xff - r0Gt0) &&& r1Minus)

def useHint88 (r hint : Nat) : Nat :=
  let M := 44
  let (r1, r0) := decompose88 r
  if hint = 0 then r1
  else if r0 > 0 then
    if r1 = M - 1 then 0 else r1 + 1
  else if r1 = 0 then M - 1
  else r1 - 1

def useHint (r hint gamma2Den : Nat) : Nat :=
  match gamma2Den with
  | 32 => useHint32 r hint
  | 88 => useHint88 r hint
  | _ => 0

/-! ## Polynomials -/

inductive Domain where
  | ring
  | ntt

structure PolyIn (domain : Domain) where
  coeffs : List Nat
  length_eq : coeffs.length = N
deriving DecidableEq

abbrev Poly := PolyIn .ring

abbrev NttPoly := PolyIn .ntt

namespace PolyIn

variable {d : Domain}

def coeff (p : PolyIn d) (i : Nat) : Nat := p.coeffs.getD i 0

/-- `default()` -/
def zero (d : Domain) : PolyIn d := ⟨List.replicate N 0, by simp⟩

def map {e : Domain} (f : Nat → Nat) (p : PolyIn d) : PolyIn e :=
  ⟨p.coeffs.map f, by rw [List.length_map, p.length_eq]⟩

def zipWith (f : Nat → Nat → Nat) (p q : PolyIn d) : PolyIn d :=
  ⟨List.zipWith f p.coeffs q.coeffs, by
    rw [List.length_zipWith, p.length_eq, q.length_eq, Nat.min_self]⟩

end PolyIn

def polyAdd (a b : Poly) : Poly := a.zipWith fieldAdd b

def polySub (a b : Poly) : Poly := a.zipWith fieldSub b

def nttAdd (a b : NttPoly) : NttPoly := a.zipWith fieldAdd b

def nttSub (a b : NttPoly) : NttPoly := a.zipWith fieldSub b

def nttMul (a b : NttPoly) : NttPoly := a.zipWith fieldMontgomeryMul b

/-! ## Transforms -/

def nttButterfly (zeta u v : Nat) : Nat × Nat :=
  let t := fieldMontgomeryMul zeta v
  (fieldAdd u t, fieldSub u t)

def invnttButterfly (zeta u v : Nat) : Nat × Nat :=
  (fieldAdd u v, fieldMontgomeryMul zeta (fieldSub v u))

/-- `for j in (start..start + len).step_by(2)` with two butterflies in the body -/
def butterflyPairs (bf : Nat → Nat → Nat × Nat) (len start : Nat) (r : List Nat) :
    List Nat :=
  forRange 0 (len / 2) (fun i r =>
    let j := start + 2 * i
    butterfly bf len (j + 1) (butterfly bf len j r)) r

def butterflies4 (bf : Nat → Nat → Nat × Nat) (start : Nat) (r : List Nat) : List Nat :=
  let r := butterfly bf 4 start r
  let r := butterfly bf 4 (start + 1) r
  let r := butterfly bf 4 (start + 2) r
  butterfly bf 4 (start + 3) r

def butterflies2 (bf : Nat → Nat → Nat × Nat) (start : Nat) (r : List Nat) : List Nat :=
  let r := butterfly bf 2 start r
  butterfly bf 2 (start + 1) r

def butterflies1 (bf : Nat → Nat → Nat × Nat) (start : Nat) (r : List Nat) : List Nat :=
  butterfly bf 1 start r

/-- The variables `len` and `m` of a transform and its array. -/
structure LayerState where
  len : Nat
  m : Nat
  r : List Nat

def nttLayer (s : LayerState) : LayerState :=
  let pass := blockPass N s.len (fun m => m + 1)
    (fun m => butterflyPairs (nttButterfly (zeta (m + 1))) s.len) s.m s.r
  ⟨s.len / 2, pass.1, pass.2⟩

def nttCoeffs (f : List Nat) : List Nat :=
  let s := whileLoop (fun s => decide (8 ≤ s.len)) nttLayer N ⟨128, 0, f⟩
  let p := blockPass N 4 (fun m => m + 1)
    (fun m => butterflies4 (nttButterfly (zeta (m + 1)))) s.m s.r
  let p := blockPass N 2 (fun m => m + 1)
    (fun m => butterflies2 (nttButterfly (zeta (m + 1)))) p.1 p.2
  (blockPass N 1 (fun m => m + 1)
    (fun m => butterflies1 (nttButterfly (zeta (m + 1)))) p.1 p.2).2

def invnttLayer (s : LayerState) : LayerState :=
  let pass := blockPass N s.len (fun m => m - 1)
    (fun m => butterflyPairs (invnttButterfly (zeta m)) s.len) s.m s.r
  ⟨s.len * 2, pass.1, pass.2⟩

def invnttCoeffs (f : List Nat) : List Nat :=
  let p := blockPass N 1 (fun m => m - 1)
    (fun m => butterflies1 (invnttButterfly (zeta m))) 255 f
  let p := blockPass N 2 (fun m => m - 1)
    (fun m => butterflies2 (invnttButterfly (zeta m))) p.1 p.2
  let p := blockPass N 4 (fun m => m - 1)
    (fun m => butterflies4 (invnttButterfly (zeta m))) p.1 p.2
  let s := whileLoop (fun s => decide (s.len < N)) invnttLayer N ⟨8, p.1, p.2⟩
  s.r.map fun c => fieldMontgomeryMul c N_INV

theorem length_butterflyPairs (bf : Nat → Nat → Nat × Nat) (len start : Nat)
    (r : List Nat) : (butterflyPairs bf len start r).length = r.length :=
  forRange_rule (I := fun _ (s : List Nat) => s.length = r.length)
    (fun _ s _ _ hs => by simp [hs]) rfl

theorem length_nttCoeffs (f : List Nat) : (nttCoeffs f).length = f.length := by
  have hlayer : ∀ s, (nttLayer s).r.length = s.r.length := fun s => by
    simp only [nttLayer]
    exact length_blockPass _ _ _ (fun _ start r => length_butterflyPairs _ _ start r) _ _
  unfold nttCoeffs
  generalize N = fuel
  simp only
  rw [length_blockPass _ _ _ (by simp [butterflies1]),
    length_blockPass _ _ _ (by simp [butterflies2]),
    length_blockPass _ _ _ (by simp [butterflies4])]
  exact whileLoop_preserves (P := fun s : LayerState => s.r.length = f.length)
    (fun s hs => (hlayer s).trans hs) fuel rfl

theorem length_invnttCoeffs (f : List Nat) : (invnttCoeffs f).length = f.length := by
  have hlayer : ∀ s, (invnttLayer s).r.length = s.r.length := fun s => by
    simp only [invnttLayer]
    exact length_blockPass _ _ _ (fun _ start r => length_butterflyPairs _ _ start r) _ _
  unfold invnttCoeffs
  generalize N = fuel
  simp only [List.length_map]
  refine whileLoop_preserves (P := fun s : LayerState => s.r.length = f.length)
    (fun s hs => (hlayer s).trans hs) fuel ?_
  simp only
  rw [length_blockPass _ _ _ (by simp [butterflies4]),
    length_blockPass _ _ _ (by simp [butterflies2]),
    length_blockPass _ _ _ (by simp [butterflies1])]

def ntt (f : Poly) : NttPoly :=
  ⟨nttCoeffs f.coeffs, (length_nttCoeffs _).trans f.length_eq⟩

def invntt (f : NttPoly) : Poly :=
  ⟨invnttCoeffs f.coeffs, (length_invnttCoeffs _).trans f.length_eq⟩

end Stdx.MlDsa
