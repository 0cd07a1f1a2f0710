import Stdx.MlKem.Compression
import Stdx.MlKem.Decryption

/-!
# No narrowing of ML-KEM truncates

The encryption and the decryption again, without an answer where a cast to `i16` would change
its value or an `i32` overflow.  They have one for every key and ciphertext.  The first cast of
`montgomery_reduce` takes the low word of a product and is meant to truncate; `low` says whether
it is checked as well.
-/

namespace Stdx.MlKem

open Stdx.Foundation

variable {K : Nat}

/-! ## Coefficients -/

/-- An `as i16` cast that keeps its value. -/
def narrow (a : Int) : Option Int := if -2 ^ 15 ≤ a ∧ a < 2 ^ 15 then some a else none

def inI32 (a : Int) : Option Int := if -2 ^ 31 ≤ a ∧ a < 2 ^ 31 then some a else none

def montgomeryReduceChecked (low : Bool) (a : Int) : Option Int := do
  let a ← inI32 a
  let word ← if low then narrow a else some (asI16 a)
  let t := asI16 (word * QINV)
  let product ← inI32 (t * Q)
  let difference ← inI32 (a - product)
  narrow (difference >>> (16 : Nat))

def fqmulChecked (low : Bool) (a b : Int) : Option Int := montgomeryReduceChecked low (a * b)

def barrettReduceChecked (a : Int) : Option Int := do
  let V : Int := (((1 : Int) <<< (26 : Nat)) + Q / 2) / Q
  let scaled ← inI32 (V * a)
  let rounded ← inI32 (scaled + ((1 : Int) <<< (25 : Nat)))
  let t ← inI32 ((rounded >>> (26 : Nat)) * Q)
  narrow (a - t)

def basemulChecked (low : Bool) (a0 a1 b0 b1 zeta : Int) : Option (Int × Int) := do
  let high ← fqmulChecked low a1 b1
  let high ← fqmulChecked low high zeta
  let out0 ← narrow (high + (← fqmulChecked low a0 b0))
  let out1 ← narrow ((← fqmulChecked low a0 b1) + (← fqmulChecked low a1 b0))
  some (out0, out1)

def nttButterflyChecked (low : Bool) (zeta u v : Int) : Option (Int × Int) := do
  let t ← fqmulChecked low zeta v
  let upper ← narrow (u - t)
  let lower ← narrow (u + t)
  some (lower, upper)

def invnttButterflyChecked (low : Bool) (zeta u v : Int) : Option (Int × Int) := do
  let lower ← barrettReduceChecked (← narrow (u + v))
  let upper ← fqmulChecked low zeta (← narrow (v - u))
  some (lower, upper)

def tomsgBitChecked (c : Int) : Option Nat := do
  let t ← inI32 (c <<< (1 : Nat))
  let t ← inI32 (t + 1665)
  let t ← inI32 (t * 80635)
  some (t >>> (28 : Nat) % 2).toNat

theorem narrow_eq {a : Int} (hlo : -32768 ≤ a) (hhi : a ≤ 32767) : narrow a = some (asI16 a) := by
  rw [narrow, if_pos (by omega), asI16_eq hlo hhi]

theorem inI32_eq {a : Int} (hlo : -2147483648 ≤ a) (hhi : a ≤ 2147483647) :
    inI32 a = some a := if_pos (by omega)

theorem montgomeryReduceChecked_eq {a : Int} (ha : Within 109084671 a) :
    montgomeryReduceChecked false a = some (montgomeryReduce a) := by
  obtain ⟨-, -, hlo, hhi⟩ := asI16_spec (asI16 a * QINV)
  rw [montgomeryReduceChecked, montgomeryReduce, inI32_eq (by omega) (by omega)]
  simp only [Option.bind_eq_bind, Option.bind_some, Bool.false_eq_true, if_false]
  generalize asI16 (asI16 a * QINV) = t at hlo hhi ⊢
  rw [Q, inI32_eq (by omega) (by omega), Option.bind_some, inI32_eq (by omega) (by omega),
    Option.bind_some, Int.shiftRight_eq_div_pow, narrow_eq (by omega) (by omega)]

theorem fqmulChecked_eq {a b : Int} (hab : Within 109084671 (a * b)) :
    fqmulChecked false a b = some (fqmul a b) := montgomeryReduceChecked_eq hab

theorem barrettReduceChecked_eq {a : Int} (ha : Within 32767 a) :
    barrettReduceChecked a = some (barrettReduce a) := by
  have hV : (((1 : Int) <<< (26 : Nat)) + Q / 2) / Q = 20159 := by decide
  have hhalf : (1 : Int) <<< (25 : Nat) = 33554432 := by decide
  rw [barrettReduceChecked, barrettReduce]
  simp only [hV, hhalf, Option.bind_eq_bind]
  rw [inI32_eq (by omega) (by omega), Option.bind_some, inI32_eq (by omega) (by omega),
    Option.bind_some, Int.shiftRight_eq_div_pow, Q]
  generalize hf : (20159 * a + 33554432) / ((2 ^ 26 : Nat) : Int) = f
  have hfl : f * 67108864 ≤ 20159 * a + 33554432 := by
    rw [← hf]
    omega
  have hfu : 20159 * a + 33554432 < (f + 1) * 67108864 := by
    rw [← hf]
    omega
  rw [inI32_eq (by omega) (by omega), Option.bind_some, narrow_eq (by omega) (by omega)]

theorem basemulChecked_eq {a0 a1 b0 b1 w : Int} (ha0 : Within 4096 a0) (ha1 : Within 4096 a1)
    (hb0 : Within 4096 b0) (hb1 : Within 4096 b1) (hw : Within 1659 w) :
    basemulChecked false a0 a1 b0 b1 w = some (basemul a0 a1 b0 b1 w) := by
  have h00 := mul_bounds ha0 hb0
  have h01 := mul_bounds ha0 hb1
  have h10 := mul_bounds ha1 hb0
  have h11 := mul_bounds ha1 hb1
  obtain ⟨-, h11b⟩ := fqmul_spec (a := a1) (b := b1) (by omega)
  have hz := mul_bounds h11b hw
  obtain ⟨-, hzb⟩ := fqmul_spec (a := fqmul a1 b1) (b := w) (by omega)
  obtain ⟨-, h00b⟩ := fqmul_spec (a := a0) (b := b0) (by omega)
  obtain ⟨-, h01b⟩ := fqmul_spec (a := a0) (b := b1) (by omega)
  obtain ⟨-, h10b⟩ := fqmul_spec (a := a1) (b := b0) (by omega)
  rw [basemulChecked, basemul, fqmulChecked_eq (by omega), Option.bind_eq_bind, Option.bind_some,
    fqmulChecked_eq (by omega), fqmulChecked_eq (by omega), fqmulChecked_eq (by omega),
    fqmulChecked_eq (by omega)]
  simp only [Option.bind_some]
  rw [narrow_eq (by omega) (by omega), Option.bind_some, narrow_eq (by omega) (by omega)]
  rfl

theorem nttButterflyChecked_eq (k : Nat) {u v B : Int} (hB : B ≤ 29439) (hu : Within B u)
    (hv : Within B v) :
    nttButterflyChecked false (zeta k) u v = some (nttButterfly (zeta k) u v) := by
  have hprod := mul_bounds (zeta_bound k) (show Within 29439 v by omega)
  obtain ⟨-, hlo, hhi⟩ := fqmul_spec (a := zeta k) (b := v) (by omega)
  rw [nttButterflyChecked, nttButterfly, fqmulChecked_eq (by omega)]
  simp only [Option.bind_eq_bind, Option.bind_some]
  rw [narrow_eq (by omega) (by omega), Option.bind_some, narrow_eq (by omega) (by omega)]
  rfl

theorem invnttButterflyChecked_eq (k : Nat) {u v : Int} (hu : Within 16383 u)
    (hv : Within 16383 v) :
    invnttButterflyChecked false (zeta k) u v = some (invnttButterfly (zeta k) u v) := by
  have hprod := mul_bounds (zeta_bound k) (show Within 32766 (v - u) by omega)
  rw [invnttButterflyChecked, invnttButterfly, narrow_eq (by omega) (by omega),
    asI16_eq (by omega) (by omega), narrow_eq (by omega) (by omega),
    asI16_eq (by omega) (by omega)]
  simp only [Option.bind_eq_bind, Option.bind_some]
  rw [barrettReduceChecked_eq (by omega), Option.bind_some, fqmulChecked_eq (by omega)]
  rfl

theorem tomsgBitChecked_eq {c : Int} (hc : Within 1664 c) :
    tomsgBitChecked c = some (tomsgBit c) := by
  have hshift : c <<< (1 : Nat) = c * 2 := by rw [Int.shiftLeft_eq]; rfl
  rw [tomsgBitChecked, tomsgBit, hshift, inI32_eq (by omega) (by omega)]
  simp only [Option.bind_eq_bind, Option.bind_some]
  rw [inI32_eq (by omega) (by omega), Option.bind_some, inI32_eq (by omega) (by omega)]
  rfl

/-! ## Transforms -/

def nttLayerChecked (low : Bool) (s : LayerState) : Option LayerState :=
  (blockPassChecked N s.len (fun k => k + 1)
    (fun k => butterfliesChecked (nttButterflyChecked low (zeta k)) s.len) s.k s.r).map
    fun pass => ⟨s.len >>> 1, pass.1, pass.2⟩

def nttChecked (low : Bool) (r : List Int) : Option (List Int) :=
  (whileLoop (fun s : Option LayerState => s.elim false fun s => decide (2 ≤ s.len))
    (fun s => s.bind (nttLayerChecked low)) N (some ⟨128, 1, r⟩)).map (·.r)

def invnttLayerChecked (low : Bool) (s : LayerState) : Option LayerState :=
  (blockPassChecked N s.len (fun k => k - 1)
    (fun k => butterfliesChecked (invnttButterflyChecked low (zeta k)) s.len) s.k s.r).map
    fun pass => ⟨s.len <<< 1, pass.1, pass.2⟩

def invnttChecked (low : Bool) (r : List Int) : Option (List Int) := do
  let s ← whileLoop (fun s : Option LayerState => s.elim false fun s => decide (s.len ≤ 128))
    (fun s => s.bind (invnttLayerChecked low)) N (some ⟨2, 127, r⟩)
  s.r.mapM fun c => fqmulChecked low c MONT_SQUARED_DIV_N

theorem nttLayerChecked_eq {x : Nat → F} {B : Int} (hB : B ≤ 9471) {m : Nat} (hm : m < 7)
    {s : LayerState} (hs : HoldsLevel x B m s) :
    nttLayerChecked false s = some (nttLayer s) := by
  obtain ⟨hlen, -, hlength, hcells⟩ := hs
  have hlen' : s.len = 2 ^ (8 - 1 - m) := hlen
  have hfill : N = 2 ^ m * (2 * s.len) := hlen' ▸ blocks_fill (h := 8) (by omega)
  rw [nttLayerChecked, blockPassChecked_eq (P := Within (B + 3328 * m))
    (g := fun k => nttButterfly (zeta k)) (by rw [hlen']; positivity) hfill
    (fun b _ u v hu hv => nttButterflyChecked_eq _ (by omega) hu hv) hlength
    fun i hi => (hcells i hi).1]
  rfl

theorem nttChecked_eq {r : List Int} (hlength : r.length = N)
    (hr : ∀ i, i < N → Within 9471 (r.getD i 0)) : nttChecked false r = some (ntt r) := by
  have hloop := whileLoop_lift (c := fun s : LayerState => decide (2 ≤ s.len)) (f := nttLayer)
    (g := nttLayerChecked false)
    (I := fun s => ∃ m, m ≤ 7 ∧ HoldsLevel (fun i => (r.getD i 0 : F)) 9471 m s)
    (by
      rintro s ⟨m, hm, hs⟩ hcond
      have hlen : 2 ≤ s.len := by simpa using hcond
      have hm7 : m < 7 := by
        by_contra hge
        rw [hs.1, show 7 - m = 0 by omega] at hlen
        omega
      exact ⟨nttLayerChecked_eq le_rfl hm7 hs, m + 1, hm7, nttLayer_holds le_rfl hm7 hs⟩)
    N (s := ⟨128, 1, r⟩)
    ⟨0, by decide, rfl, rfl, hlength, fun i hi => ⟨by simpa using hr i hi, rfl⟩⟩
  rw [nttChecked, hloop.1]
  rfl

theorem invnttLayerChecked_eq {x : Nat → F} {count : Nat} (hcount : count < 7)
    {s : LayerState} (hs : HoldsInverse x count s) :
    invnttLayerChecked false s = some (invnttLayer s) := by
  obtain ⟨hlen, -, hlength, hcells⟩ := hs
  have hlen' : s.len = 2 ^ (8 - 1 - (7 - 1 - count)) := by
    rw [hlen]
    congr 1
    omega
  have hfill : N = 2 ^ (7 - 1 - count) * (2 * s.len) :=
    hlen' ▸ blocks_fill (h := 8) (by omega)
  rw [invnttLayerChecked, blockPassChecked_eq (P := Within 16383)
    (g := fun k => invnttButterfly (zeta k)) (by rw [hlen']; positivity) hfill
    (fun b _ u v hu hv => invnttButterflyChecked_eq _ hu hv) hlength
    fun i hi => (hcells i hi).1]
  rfl

theorem invnttChecked_eq {r : List Int} (hlength : r.length = N)
    (hr : ∀ i, i < N → Within 16383 (r.getD i 0)) :
    invnttChecked false r = some (invntt r) := by
  have hloop := fun fuel => whileLoop_lift
    (c := fun s : LayerState => decide (s.len ≤ 128)) (f := invnttLayer)
    (g := invnttLayerChecked false)
    (I := fun s => ∃ count, count ≤ 7 ∧ HoldsInverse (fun i => (r.getD i 0 : F)) count s)
    (by
      rintro s ⟨count, hcount, hs⟩ hcond
      have hlen : s.len ≤ 128 := by simpa using hcond
      have hlt : count < 7 := by
        by_contra hge
        rw [hs.1, show count = 7 by omega] at hlen
        omega
      exact ⟨invnttLayerChecked_eq hlt hs, count + 1, hlt, invnttLayer_holds hlt hs⟩)
    fuel (s := ⟨2, 127, r⟩)
    ⟨0, by decide, rfl, rfl, hlength, fun i hi => ⟨hr i hi, rfl⟩⟩
  unfold invnttChecked invntt
  generalize N = fuel
  obtain ⟨hchecked, count, -, -, -, hlength', hcells⟩ := hloop fuel
  rw [hchecked, Option.bind_eq_bind, Option.bind_some]
  refine mapM_of_forall fun c hc => ?_
  obtain ⟨i, hi, rfl⟩ := List.mem_iff_getElem.mp hc
  have hbound := (hcells i (hlength' ▸ hi)).1
  rw [List.getD_eq_getElem _ _ hi] at hbound
  have hprod := mul_bounds hbound (show Within 1441 MONT_SQUARED_DIV_N by decide)
  exact fqmulChecked_eq (by omega)

/-! ## Polynomials -/

def Poly.ofCoeffs (coeffs : List Int) : Option Poly :=
  if h : coeffs.length = N then some ⟨coeffs, h⟩ else none

def polyReduceChecked (poly : Poly) : Option Poly :=
  (poly.coeffs.mapM barrettReduceChecked).bind Poly.ofCoeffs

def polyAddChecked (left right : Poly) : Option Poly :=
  ((left.coeffs.zip right.coeffs).mapM fun p => narrow (p.1 + p.2)).bind Poly.ofCoeffs

def polySubChecked (left right : Poly) : Option Poly :=
  ((left.coeffs.zip right.coeffs).mapM fun p => narrow (p.1 - p.2)).bind Poly.ofCoeffs

def polyNttChecked (low : Bool) (poly : Poly) : Option Poly := do
  polyReduceChecked (← (nttChecked low poly.coeffs).bind Poly.ofCoeffs)

def polyInvnttTomontChecked (low : Bool) (poly : Poly) : Option Poly :=
  (invnttChecked low poly.coeffs).bind Poly.ofCoeffs

def polyBasemulMontgomeryChecked (low : Bool) (a b : Poly) : Option Poly := do
  let chunks ← forCollect (N / 4) fun i => do
    let r0 ← basemulChecked low (a.coeff (4 * i)) (a.coeff (4 * i + 1))
      (b.coeff (4 * i)) (b.coeff (4 * i + 1)) (zeta (64 + i))
    let r1 ← basemulChecked low (a.coeff (4 * i + 2)) (a.coeff (4 * i + 3))
      (b.coeff (4 * i + 2)) (b.coeff (4 * i + 3)) (-zeta (64 + i))
    some [r0.1, r0.2, r1.1, r1.2]
  Poly.ofCoeffs chunks.flatten

def polyTomsgChecked (poly : Poly) : Option Bytes :=
  forCollect (N / 8) fun i =>
    forRange 0 8 (fun j octet => octet.bind fun octet =>
      (tomsgBitChecked (poly.coeff (8 * i + j))).map fun bit =>
        octet ||| UInt8.ofNat (bit <<< j)) (some 0)

theorem Poly.ofCoeffs_eq {coeffs : List Int} (h : coeffs.length = N) :
    Poly.ofCoeffs coeffs = some ⟨coeffs, h⟩ := dif_pos h

theorem Poly.Bounded.mem {B : Int} {p : Poly} (hp : p.Bounded B) {c : Int}
    (hc : c ∈ p.coeffs) : Within B c := by
  obtain ⟨i, hi, rfl⟩ := List.mem_iff_getElem.mp hc
  have hbound := hp i (p.length_eq ▸ hi)
  rwa [Poly.coeff, List.getD_eq_getElem _ _ hi] at hbound

theorem polyReduceChecked_eq {p : Poly} (hp : p.Bounded 32767) :
    polyReduceChecked p = some (polyReduce p) := by
  rw [polyReduceChecked, mapM_of_forall fun c hc => barrettReduceChecked_eq (hp.mem hc),
    Option.bind_some]
  exact Poly.ofCoeffs_eq (polyReduce p).length_eq

theorem polyAddChecked_eq {p q : Poly} {A B : Int} (hp : p.Bounded A) (hq : q.Bounded B)
    (hAB : A + B ≤ 32767) : polyAddChecked p q = some (polyAdd p q) := by
  rw [polyAddChecked, mapM_of_forall (g := fun p => asI16 (p.1 + p.2)) fun c hc => by
    have hl := hp.mem (List.of_mem_zip hc).1
    have hr := hq.mem (List.of_mem_zip hc).2
    exact narrow_eq (by omega) (by omega), Option.bind_some]
  have hzip := @List.map_uncurry_zip_eq_zipWith _ _ _ (fun a b => asI16 (a + b))
    p.coeffs q.coeffs
  exact (congrArg Poly.ofCoeffs hzip).trans (Poly.ofCoeffs_eq (polyAdd p q).length_eq)

theorem polySubChecked_eq {p q : Poly} {A B : Int} (hp : p.Bounded A) (hq : q.Bounded B)
    (hAB : A + B ≤ 32767) : polySubChecked p q = some (polySub p q) := by
  rw [polySubChecked, mapM_of_forall (g := fun p => asI16 (p.1 - p.2)) fun c hc => by
    have hl := hp.mem (List.of_mem_zip hc).1
    have hr := hq.mem (List.of_mem_zip hc).2
    exact narrow_eq (by omega) (by omega), Option.bind_some]
  have hzip := @List.map_uncurry_zip_eq_zipWith _ _ _ (fun a b => asI16 (a - b))
    p.coeffs q.coeffs
  exact (congrArg Poly.ofCoeffs hzip).trans (Poly.ofCoeffs_eq (polySub p q).length_eq)

theorem polyNttChecked_eq {p : Poly} (hp : p.Bounded 9471) :
    polyNttChecked false p = some (polyNtt p) := by
  obtain ⟨-, hcells⟩ := ntt_spec (x := p.residue) le_rfl
    ⟨p.length_eq, fun i hi => ⟨hp i hi, rfl⟩⟩
  rw [polyNttChecked, nttChecked_eq p.length_eq hp, Option.bind_some,
    Poly.ofCoeffs_eq ((length_ntt _).trans p.length_eq), polyNtt, Option.bind_eq_bind,
    Option.bind_some]
  exact polyReduceChecked_eq fun i hi => (hcells i hi).1

theorem polyInvnttTomontChecked_eq {p : Poly} (hp : p.Bounded 16383) :
    polyInvnttTomontChecked false p = some (polyInvnttTomont p) := by
  rw [polyInvnttTomontChecked, invnttChecked_eq p.length_eq hp, Option.bind_some,
    Poly.ofCoeffs_eq ((length_invntt _).trans p.length_eq), polyInvnttTomont]

theorem polyBasemulMontgomeryChecked_eq {a b : Poly} (ha : a.Bounded 4096)
    (hb : b.Bounded 4096) :
    polyBasemulMontgomeryChecked false a b = some (polyBasemulMontgomery a b) := by
  rw [polyBasemulMontgomeryChecked, forCollect_of_forall (g := fun i =>
    let r0 := basemul (a.coeff (4 * i)) (a.coeff (4 * i + 1))
      (b.coeff (4 * i)) (b.coeff (4 * i + 1)) (zeta (64 + i))
    let r1 := basemul (a.coeff (4 * i + 2)) (a.coeff (4 * i + 3))
      (b.coeff (4 * i + 2)) (b.coeff (4 * i + 3)) (-zeta (64 + i))
    [r0.1, r0.2, r1.1, r1.2]) fun i hi => ?_]
  · exact Poly.ofCoeffs_eq (polyBasemulMontgomery a b).length_eq
  · have hlt : ∀ j, j < 4 → 4 * i + j < N := fun j hj => by
      simp only [N] at hi ⊢
      omega
    have hzeta := zeta_bound (64 + i)
    have hfirst := hlt 0 (by decide)
    rw [Nat.add_zero] at hfirst
    rw [basemulChecked_eq (ha _ hfirst) (ha _ (hlt 1 (by decide))) (hb _ hfirst)
        (hb _ (hlt 1 (by decide))) hzeta,
      basemulChecked_eq (ha _ (hlt 2 (by decide))) (ha _ (hlt 3 (by decide)))
        (hb _ (hlt 2 (by decide))) (hb _ (hlt 3 (by decide))) (by omega)]
    rfl

theorem polyTomsgChecked_eq {p : Poly} (hp : p.Bounded 1664) :
    polyTomsgChecked p = some (polyTomsg p) := by
  refine forCollect_of_forall fun i hi => ?_
  refine forRange_lift (I := fun _ _ => True) (fun j octet _ hj _ => ⟨?_, trivial⟩) trivial
  rw [tomsgBitChecked_eq (hp _ (by simp only [N] at hi ⊢; omega))]
  rfl

/-! ## Vectors -/

def polyvecChecked (K : Nat) (f : Nat → Option Poly) : Option (PolyVec K) :=
  (forCollect K f).map fun vec => .ofFn K fun i => vec.getD i .zero

def polyvecNttChecked (low : Bool) (v : PolyVec K) : Option (PolyVec K) :=
  polyvecChecked K fun i => polyNttChecked low (v.get i)

def polyvecInvnttTomontChecked (low : Bool) (v : PolyVec K) : Option (PolyVec K) :=
  polyvecChecked K fun i => polyInvnttTomontChecked low (v.get i)

def polyvecReduceChecked (v : PolyVec K) : Option (PolyVec K) :=
  polyvecChecked K fun i => polyReduceChecked (v.get i)

def polyvecAddChecked (left right : PolyVec K) : Option (PolyVec K) :=
  polyvecChecked K fun i => polyAddChecked (left.get i) (right.get i)

def polyvecBasemulAccMontgomeryChecked (low : Bool) (a b : PolyVec K) : Option Poly := do
  let out ← forRange 1 (K - 1) (fun i out => out.bind fun out => do
      polyAddChecked out (← polyBasemulMontgomeryChecked low (a.get i) (b.get i)))
    (polyBasemulMontgomeryChecked low (a.get 0) (b.get 0))
  polyReduceChecked out

/-- Every coefficient of every polynomial of the vector is at most `B`. -/
def PolyVec.Bounded (B : Int) (v : PolyVec K) : Prop := ∀ k, k < K → (v.get k).Bounded B

theorem PolyVec.Bounded.mono {B B' : Int} (h : B ≤ B') {v : PolyVec K} (hv : v.Bounded B) :
    v.Bounded B' := fun k hk => (hv k hk).mono h

theorem PolyVec.ext_get {v w : PolyVec K} (h : ∀ k, k < K → v.get k = w.get k) : v = w := by
  obtain ⟨vs, hv⟩ := v
  obtain ⟨ws, hw⟩ := w
  have hvec : vs = ws := ext_getD (hv.trans hw.symm) .zero fun k hk => h k (hv ▸ hk)
  subst hvec
  rfl

theorem polyvecChecked_eq {f : Nat → Option Poly} {v : PolyVec K}
    (h : ∀ k, k < K → f k = some (v.get k)) : polyvecChecked K f = some v := by
  rw [polyvecChecked, forCollect_of_forall h, Option.map_some]
  refine congrArg some (PolyVec.ext_get fun k hk => ?_)
  rw [PolyVec.get_ofFn _ hk, getD_map_range _ hk]

theorem polyvecNttChecked_eq {v : PolyVec K} (hv : v.Bounded 9471) :
    polyvecNttChecked false v = some (polyvecNtt v) :=
  polyvecChecked_eq fun k hk => by
    rw [polyNttChecked_eq (hv k hk), polyvecNtt, PolyVec.get_map _ _ hk]

theorem polyvecInvnttTomontChecked_eq {v : PolyVec K} (hv : v.Bounded 16383) :
    polyvecInvnttTomontChecked false v = some (polyvecInvnttTomont v) :=
  polyvecChecked_eq fun k hk => by
    rw [polyInvnttTomontChecked_eq (hv k hk), polyvecInvnttTomont, PolyVec.get_map _ _ hk]

theorem polyvecReduceChecked_eq {v : PolyVec K} (hv : v.Bounded 32767) :
    polyvecReduceChecked v = some (polyvecReduce v) :=
  polyvecChecked_eq fun k hk => by
    rw [polyReduceChecked_eq (hv k hk), polyvecReduce, PolyVec.get_map _ _ hk]

theorem polyvecAddChecked_eq {v w : PolyVec K} {A B : Int}
    (hv : v.Bounded A) (hw : w.Bounded B) (hAB : A + B ≤ 32767) :
    polyvecAddChecked v w = some (polyvecAdd v w) :=
  polyvecChecked_eq fun k hk => by
    rw [polyAddChecked_eq (hv k hk) (hw k hk) hAB, polyvecAdd, PolyVec.get_zipWith _ _ _ hk]

theorem polyvecBasemulAccMontgomeryChecked_eq (hK : 0 < K) (hK4 : K ≤ 4) {a b : PolyVec K}
    (ha : a.Bounded 4096) (hb : b.Bounded 4096) :
    polyvecBasemulAccMontgomeryChecked false a b = some (polyvecBasemulAccMontgomery a b) ∧
      (polyvecBasemulAccMontgomery a b).Bounded 1664 := by
  have hterm := fun k (hk : k < K) => (polyBasemulMontgomery_spec (ha k hk) (hb k hk)).1
  have hstep : ∀ k out, 1 ≤ k → k < 1 + (K - 1) → Poly.Bounded (6656 * k) out →
      (do polyAddChecked out (← polyBasemulMontgomeryChecked false (a.get k) (b.get k))) =
        some (polyAdd out (polyBasemulMontgomery (a.get k) (b.get k))) ∧
      Poly.Bounded (6656 * (k + 1 : Nat))
        (polyAdd out (polyBasemulMontgomery (a.get k) (b.get k))) := by
    intro k out hlo hhi hbound
    have hkK : k < K := by omega
    rw [polyBasemulMontgomeryChecked_eq (ha k hkK) (hb k hkK), Option.bind_eq_bind,
      Option.bind_some, polyAddChecked_eq hbound (hterm k hkK) (by omega)]
    exact ⟨rfl, (polyAdd_spec hbound (hterm k hkK) (by omega)).1.mono (by push_cast; omega)⟩
  have hstart : Poly.Bounded (6656 * (1 : Nat)) (polyBasemulMontgomery (a.get 0) (b.get 0)) :=
    (hterm 0 hK).mono (by omega)
  have hbound := forRange_rule (I := fun k out => Poly.Bounded (6656 * k) out)
    (fun k out hlo hhi hout => (hstep k out hlo hhi hout).2) hstart
  have hbound := hbound.mono (show (6656 * (1 + (K - 1) : Nat) : Int) ≤ 32767 by omega)
  constructor
  · rw [polyvecBasemulAccMontgomeryChecked, polyBasemulMontgomeryChecked_eq (ha 0 hK) (hb 0 hK),
      forRange_lift (I := fun k out => Poly.Bounded (6656 * k) out) hstep hstart,
      Option.bind_eq_bind, Option.bind_some]
    exact polyReduceChecked_eq hbound
  · exact (polyReduce_spec hbound).1

/-! ## Encryption and decryption -/

/-- `encVectors`; the outer `none` is a sampling that has not returned. -/
def encVectorsChecked (low : Bool) (H : Sha3) (fuel : Nat) (params : MlKemParams K)
    (message publicKey coins : Bytes) : Option (Option (PolyVec K × Poly)) := do
  let (pkpv, seed) := unpackPk K publicKey
  let transposed ← genMatrix H fuel K seed true
  let k := polyFrommsg message
  let ep := noiseVec H K coins K 2
  let epp := polyGetnoise H coins (UInt8.ofNat (K + K)) 2
  some do
    let sp ← polyvecNttChecked low (noiseVec H K coins 0 params.eta1)
    let b ← polyvecChecked K fun i => polyvecBasemulAccMontgomeryChecked low
      (transposed.getD i (.ofFn K fun _ => .zero)) sp
    let v ← polyvecBasemulAccMontgomeryChecked low pkpv sp
    let b ← polyvecInvnttTomontChecked low b
    let v ← polyInvnttTomontChecked low v
    let b ← polyvecAddChecked b ep
    let v ← polyAddChecked (← polyAddChecked v epp) k
    some (← polyvecReduceChecked b, ← polyReduceChecked v)

def indcpaEncChecked (low : Bool) (H : Sha3) (fuel : Nat) (params : MlKemParams K)
    (message publicKey coins : Bytes) : Option (Option Bytes) :=
  (encVectorsChecked low H fuel params message publicKey coins).map fun vectors =>
    vectors.map fun (b, v) => packCiphertext params b v

def indcpaDecChecked (low : Bool) (params : MlKemParams K) (ciphertext secretKey : Bytes) :
    Option Bytes := do
  let (b, v) := unpackCiphertext params ciphertext
  let skpv := unpackSk K secretKey
  let mp ← polyvecBasemulAccMontgomeryChecked low skpv (← polyvecNttChecked low b)
  let product ← polyInvnttTomontChecked low mp
  polyTomsgChecked (← polyReduceChecked (← polySubChecked v product))

theorem polyvecNtt_bounded {v : PolyVec K} (hv : v.Bounded 9471) :
    (polyvecNtt v).Bounded 1664 := fun k hk => (polyvecNtt_transforms hv k hk).1

theorem polyvecInvnttTomont_bounded {v : PolyVec K} (hv : v.Bounded 16383) :
    (polyvecInvnttTomont v).Bounded 3328 := fun k hk => by
  rw [polyvecInvnttTomont, PolyVec.get_map _ _ hk]
  exact (polyInvnttTomont_spec (hv k hk)).1

theorem polyvecAdd_bounded {v w : PolyVec K} {A B : Int} (hv : v.Bounded A) (hw : w.Bounded B)
    (hAB : A + B ≤ 32767) : (polyvecAdd v w).Bounded (A + B) := fun k hk => by
  rw [polyvecAdd, PolyVec.get_zipWith _ _ _ hk]
  exact (polyAdd_spec (hv k hk) (hw k hk) hAB).1

theorem polyvecFrombytes_bounded (input : Bytes) : (polyvecFrombytes K input).Bounded 4096 :=
  fun k hk i hi => by
    have := coeff_polyvecFrombytes_bounds (K := K) input hk hi
    omega

theorem polyFrommsg_bounded (msg : Bytes) : (polyFrommsg msg).Bounded 1665 := fun i hi => by
  rw [coeff_polyFrommsg msg hi]
  rcases messageBit_cases msg i with h | h <;> rw [h] <;> decide

theorem unpackPoly_bounded {m w d : Nat} (P : Packing m w d) (hm : m * (N / m) = N)
    {f : Nat → Int} {B : Int} (hf : ∀ t, Within B (f t)) (octet : Nat → UInt8) :
    (unpackPoly P hm f octet).Bounded B := fun i hi => by
  rw [Poly.coeff, unpackPoly,
    getD_map_of_lt f (by rw [P.length_unpackAll, hm]; exact hi) 0 0]
  exact hf _

theorem decompressCoeff_within {d : Nat} (hd : 0 < d) (t : Nat) :
    Within 3329 (decompressCoeff d t) := by
  have := decompressCoeff_range hd t
  omega

theorem polyDecompress_bounded (params : MlKemParams K) (input : Bytes) :
    (polyDecompress params input).Bounded 3329 := by
  rcases params.poly_eq with h | h <;> simp only [polyDecompress, h] <;>
    exact unpackPoly_bounded _ _ (decompressCoeff_within (by decide)) _

theorem polyvecDecompress_bounded (params : MlKemParams K) (input : Bytes) :
    (polyvecDecompress params input).Bounded 3329 := by
  intro k hk
  rcases params.polyvec_eq with ⟨h, -⟩ | ⟨h, -⟩ <;> simp only [polyvecDecompress, h] <;>
    rw [PolyVec.get_ofFn _ hk] <;>
    exact unpackPoly_bounded _ _ (decompressCoeff_within (by decide)) _

theorem encVectorsChecked_eq (H : Sha3) (fuel : Nat) (params : MlKemParams K)
    (message publicKey coins : Bytes) :
    encVectorsChecked false H fuel params message publicKey coins =
      (encVectors H fuel params message publicKey coins).map some := by
  obtain ⟨hK, hK4⟩ := params_K params
  simp only [encVectorsChecked, encVectors, unpackPk]
  generalize (publicKey.drop (polyvecBytes K)).take 32 = seed
  rcases hmatrix : genMatrix H fuel K seed true with _ | transposed
  · rfl
  · have hnoise : ∀ offset eta, PolyVec.Bounded 3 (noiseVec H K coins offset eta) :=
      fun offset eta k hk => noiseVec_bounded H coins offset eta hk
    have hpk := polyvecFrombytes_bounded (K := K) (publicKey.take (polyvecBytes K))
    have hsp := (polyvecNtt_bounded ((hnoise 0 params.eta1).mono (by decide))).mono
      (show (1664 : Int) ≤ 4096 by decide)
    have hrow : ∀ i, i < K →
        PolyVec.Bounded 4096 (transposed.getD i (.ofFn K fun _ => .zero)) :=
      fun i hi k hk => (genMatrix_row hmatrix _ hi k hk).1
    have hacc := fun i hi => polyvecBasemulAccMontgomeryChecked_eq hK hK4 (hrow i hi) hsp
    have hrows : polyvecChecked K (fun i => polyvecBasemulAccMontgomeryChecked false
        (transposed.getD i (.ofFn K fun _ => .zero))
        (polyvecNtt (noiseVec H K coins 0 params.eta1))) =
        some (.ofFn K fun i => polyvecBasemulAccMontgomery
          (transposed.getD i (.ofFn K fun _ => .zero))
          (polyvecNtt (noiseVec H K coins 0 params.eta1))) := polyvecChecked_eq fun i hi => by
      rw [(hacc i hi).1, PolyVec.get_ofFn _ hi]
    have hb : PolyVec.Bounded 16383 (.ofFn K fun i => polyvecBasemulAccMontgomery
        (transposed.getD i (.ofFn K fun _ => .zero))
        (polyvecNtt (noiseVec H K coins 0 params.eta1))) := fun k hk => by
      rw [PolyVec.get_ofFn _ hk]
      exact (hacc k hk).2.mono (by decide)
    obtain ⟨hv, hvB⟩ := polyvecBasemulAccMontgomeryChecked_eq hK hK4 hpk hsp
    have hvB := hvB.mono (show (1664 : Int) ≤ 16383 by decide)
    have hbinv := polyvecInvnttTomont_bounded hb
    have hvinv := (polyInvnttTomont_spec hvB).1
    have hbsum := polyvecAdd_bounded hbinv (hnoise K 2) (by decide)
    have hepp := polyGetnoise_bounded H coins (UInt8.ofNat (K + K)) 2
    have hvsum := (polyAdd_spec hvinv hepp (by decide)).1
    have hvmsg := (polyAdd_spec hvsum (polyFrommsg_bounded message) (by decide)).1
    simp only [Option.bind_eq_bind, Option.bind_some, Option.map_some]
    rw [polyvecNttChecked_eq ((hnoise 0 params.eta1).mono (by decide)), Option.bind_some,
      hrows, Option.bind_some, hv, Option.bind_some,
      polyvecInvnttTomontChecked_eq hb, Option.bind_some, polyInvnttTomontChecked_eq hvB,
      Option.bind_some, polyvecAddChecked_eq hbinv (hnoise K 2) (by decide), Option.bind_some,
      polyAddChecked_eq hvinv hepp (by decide), Option.bind_some,
      polyAddChecked_eq hvsum (polyFrommsg_bounded message) (by decide), Option.bind_some,
      polyvecReduceChecked_eq (hbsum.mono (by decide)), Option.bind_some,
      polyReduceChecked_eq (hvmsg.mono (by decide)), Option.bind_some]

theorem indcpaDecChecked_eq (params : MlKemParams K) (ciphertext secretKey : Bytes) :
    indcpaDecChecked false params ciphertext secretKey =
      some (indcpaDec params ciphertext secretKey) := by
  obtain ⟨hK, hK4⟩ := params_K params
  have hb := (polyvecDecompress_bounded params
    (ciphertext.take params.polyveccompressedbytes)).mono (show (3329 : Int) ≤ 9471 by decide)
  have hv := polyDecompress_bounded params
    ((ciphertext.drop params.polyveccompressedbytes).take params.polycompressedbytes)
  obtain ⟨hacc, haccB⟩ := polyvecBasemulAccMontgomeryChecked_eq hK hK4
    (polyvecFrombytes_bounded secretKey)
    ((polyvecNtt_bounded hb).mono (show (1664 : Int) ≤ 4096 by decide))
  have haccB := haccB.mono (show (1664 : Int) ≤ 16383 by decide)
  have hinv := (polyInvnttTomont_spec haccB).1
  have hsub := (polySub_spec hv hinv (by decide)).1.mono (show (3329 + 3328 : Int) ≤ 32767
    by decide)
  simp only [indcpaDecChecked, unpackCiphertext, unpackSk, Option.bind_eq_bind]
  rw [polyvecNttChecked_eq hb, Option.bind_some, hacc, Option.bind_some,
    polyInvnttTomontChecked_eq haccB, Option.bind_some, polySubChecked_eq hv hinv (by decide),
    Option.bind_some, polyReduceChecked_eq hsub, Option.bind_some,
    polyTomsgChecked_eq (polyReduce_spec hsub).1]
  rfl

/-- Nothing overflows and no cast truncates, but for the one that takes the low word. -/
theorem no_narrowing_truncates (params : MlKemParams K) :
    (∀ (H : Sha3) (fuel : Nat) (message publicKey coins : Bytes),
      indcpaEncChecked false H fuel params message publicKey coins =
        (indcpaEnc H fuel params message publicKey coins).map some) ∧
    ∀ ciphertext secretKey : Bytes, indcpaDecChecked false params ciphertext secretKey =
      some (indcpaDec params ciphertext secretKey) := by
  refine ⟨fun H fuel message publicKey coins => ?_, indcpaDecChecked_eq params⟩
  rw [indcpaEncChecked, indcpaEnc, encVectorsChecked_eq]
  cases encVectors H fuel params message publicKey coins with
  | none => rfl
  | some vectors => rfl

/-- The low word of the first product does not fit when every octet is `0xff`. -/
theorem montgomery_low_word_truncates :
    ¬ ∀ ciphertext secretKey : Bytes,
      ciphertext.length = ML_KEM_768.polyveccompressedbytes + ML_KEM_768.polycompressedbytes →
      secretKey.length = indcpaSecretKeyBytes 3 →
      indcpaDecChecked true ML_KEM_768 ciphertext secretKey =
        some (indcpaDec ML_KEM_768 ciphertext secretKey) := by
  intro h
  have hfails : indcpaDecChecked true ML_KEM_768 (List.replicate 1088 0xff)
      (List.replicate 1152 0) = none := by decide +kernel
  have hsome := h (List.replicate 1088 0xff) (List.replicate 1152 0) List.length_replicate
    List.length_replicate
  exact nomatch hfails.symm.trans hsome

end Stdx.MlKem
