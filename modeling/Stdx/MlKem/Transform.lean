import Stdx.MlKem.Ring
import Stdx.Foundation.Negacyclic
import Mathlib.Data.ZMod.Basic

/-!
# The transforms multiply

Every coefficient is followed twice: as an element of `ZMod 3329`, where the
passes are those of the abstract transform, and as an integer, where a bound
shows that no `i16` cast loses anything.  The Montgomery factors left by the
products cancel against the one folded into the last constant.
-/

namespace Stdx.MlKem

open Stdx.Foundation

abbrev F := ZMod 3329

instance one_lt_modulus : Fact (1 < 3329) := ⟨by decide⟩

abbrev Within (B a : Int) : Prop := -B ≤ a ∧ a ≤ B

/-! ## Coefficients -/

theorem asI16_eq {a : Int} (hlo : -32768 ≤ a) (hhi : a ≤ 32767) : asI16 a = a := by
  simp only [asI16, Int.bmod]
  omega

theorem asI16_spec (a : Int) :
    ∃ k, asI16 a = a + k * 65536 ∧ -32768 ≤ asI16 a ∧ asI16 a ≤ 32767 := by
  refine ⟨(asI16 a - a) / 65536, ?_⟩
  simp only [asI16, Int.bmod]
  omega

/-- The inverse of `2 ^ 16`. -/
def montInv : F := 169

theorem montInv_mul : (65536 : F) * montInv = 1 := by decide

theorem cast_of_sub_dvd {a b k : Int} (h : a - b = 3329 * k) : (a : F) = (b : F) := by
  rw [← sub_eq_zero, ← Int.cast_sub, h, Int.cast_mul]
  have : ((3329 : Int) : F) = 0 := by decide
  rw [this, zero_mul]

theorem montgomeryReduce_spec {a : Int} (ha : Within 109084671 a) :
    (montgomeryReduce a : F) = montInv * a ∧ Within 3328 (montgomeryReduce a) := by
  obtain ⟨k, hk, -, -⟩ := asI16_spec a
  obtain ⟨l, hl, htlo, hthi⟩ := asI16_spec (asI16 a * QINV)
  simp only [montgomeryReduce]
  generalize asI16 (asI16 a * QINV) = t at *
  -- `QINV` inverts `Q` modulo `2 ^ 16`, so the shift is exact.
  have hexact : ∃ r, a - t * Q = r * 65536 :=
    ⟨169 * a + 11075583 * k - l * 3329, by
      simp only [QINV, Q] at *
      rw [hl, hk]
      ring⟩
  obtain ⟨r, hr⟩ := hexact
  have hshift : (a - t * Q) >>> (16 : Nat) = r := by
    rw [hr, Int.shiftRight_eq_div_pow]
    exact Int.mul_ediv_cancel r (by decide)
  simp only [Q] at hr hshift ⊢
  rw [hshift, asI16_eq (by omega) (by omega)]
  refine ⟨?_, by omega, by omega⟩
  have hcast : (a : F) = ((r * 65536 : Int) : F) :=
    cast_of_sub_dvd (k := t) (by omega)
  rw [hcast, Int.cast_mul]
  have hmont := montInv_mul
  push_cast
  linear_combination -(r : F) * hmont

theorem fqmul_spec {a b : Int} (hab : Within 109084671 (a * b)) :
    (fqmul a b : F) = montInv * a * b ∧ Within 3328 (fqmul a b) := by
  obtain ⟨hcast, hbounds⟩ := montgomeryReduce_spec hab
  refine ⟨?_, hbounds⟩
  rw [fqmul, hcast, Int.cast_mul, mul_assoc]

theorem mul_bounds {a b A B : Int} (ha : Within A a) (hb : Within B b) :
    Within (A * B) (a * b) := by
  have h := abs_mul a b
  have ha' := abs_le.mpr ha
  have hb' := abs_le.mpr hb
  rw [Within, ← abs_le, h]
  exact mul_le_mul ha' hb' (abs_nonneg b) (le_trans (abs_nonneg a) ha')

theorem barrettReduce_spec {a : Int} (ha : Within 32767 a) :
    (barrettReduce a : F) = a ∧ Within 1664 (barrettReduce a) := by
  have hV : (((1 : Int) <<< (26 : Nat)) + Q / 2) / Q = 20159 := by decide
  have hhalf : (1 : Int) <<< (25 : Nat) = 33554432 := by decide
  simp only [barrettReduce]
  rw [hV]
  simp only [hhalf, Int.shiftRight_eq_div_pow, Q]
  generalize hf : (20159 * a + 33554432) / ((2 ^ 26 : Nat) : Int) = f
  have hfl : f * 67108864 ≤ 20159 * a + 33554432 := by
    rw [← hf]
    omega
  have hfu : 20159 * a + 33554432 < (f + 1) * 67108864 := by
    rw [← hf]
    omega
  rw [asI16_eq (by omega) (by omega)]
  refine ⟨cast_of_sub_dvd (k := -f) (by ring), by omega, by omega⟩

/-! ## The table -/

def twiddle (k : Nat) : F := montInv * (zeta k : F)

theorem table_entries : (∀ x ∈ ZETAS, Within 1659 x) ∧
    (∀ k, k < 64 → 0 < k → twiddle (2 * k) * twiddle (2 * k) = twiddle k) ∧
    (∀ k, k < 64 → 0 < k → twiddle (2 * k + 1) * twiddle (2 * k + 1) = -twiddle k) ∧
    (∀ m, m < 7 → ∀ b, b < 2 ^ m →
      twiddle (2 ^ (m + 1) - 1 - b) * twiddle (2 ^ m + b) = -1) := by
  decide +kernel

theorem zeta_bound (k : Nat) : Within 1659 (zeta k) := by
  rcases Nat.lt_or_ge k ZETAS.length with h | h
  · rw [zeta, List.getD_eq_getElem _ _ h]
    exact table_entries.1 _ (List.getElem_mem h)
  · rw [zeta, List.getD_eq_default _ _ h]
    decide

theorem twiddles : Twiddles twiddle 7 where
  root := by rfl
  even := fun k hpos hlt => table_entries.2.1 k (by omega) hpos
  odd := fun k hpos hlt => table_entries.2.2.1 k (by omega) hpos
  mirror := fun m b hm hb => table_entries.2.2.2 m hm b hb

/-! ## Passes -/

theorem nttButterfly_spec {k : Nat} {u v B : Int} (hB : B ≤ 29439)
    (hu : Within B u) (hv : Within B v) :
    let out := nttButterfly (zeta k) u v
    ((out.1 : F) = u + twiddle k * v ∧ Within (B + 3328) out.1) ∧
      (out.2 : F) = u - twiddle k * v ∧ Within (B + 3328) out.2 := by
  have hprod := mul_bounds (zeta_bound k) (show Within 29439 v by omega)
  obtain ⟨hcast, hlo, hhi⟩ :=
    fqmul_spec (a := zeta k) (b := v) (by omega)
  simp only [nttButterfly]
  rw [asI16_eq (by omega) (by omega), asI16_eq (by omega) (by omega), Int.cast_add,
    Int.cast_sub, hcast]
  exact ⟨⟨rfl, by omega, by omega⟩, rfl, by omega, by omega⟩

theorem invnttButterfly_spec {k : Nat} {u v : Int}
    (hu : Within 16383 u) (hv : Within 16383 v) :
    let out := invnttButterfly (zeta k) u v
    ((out.1 : F) = u + v ∧ Within 16383 out.1) ∧
      (out.2 : F) = twiddle k * (v - u) ∧ Within 16383 out.2 := by
  have hprod := mul_bounds (zeta_bound k) (show Within 32766 (v - u) by omega)
  obtain ⟨hcast, hlo, hhi⟩ :=
    fqmul_spec (a := zeta k) (b := v - u) (by omega)
  obtain ⟨hbarrett, hblo, hbhi⟩ :=
    barrettReduce_spec (a := u + v) (by omega)
  simp only [invnttButterfly]
  rw [asI16_eq (by omega) (by omega), asI16_eq (by omega) (by omega), hbarrett, hcast]
  refine ⟨⟨by push_cast; rfl, by omega, by omega⟩, ?_, by omega, by omega⟩
  push_cast
  rfl

/-- The array holds level `m` of the transform of `x`, within the bound `B`. -/
def HoldsLevel (x : Nat → F) (B : Int) (m : Nat) (s : LayerState) : Prop :=
  s.len = 2 ^ (7 - m) ∧ s.k = 2 ^ m ∧
    Holds N (fun w : Int => (w : F)) (Within (B + 3328 * m)) (forward twiddle 8 m x) s.r

theorem nttLayer_holds {x : Nat → F} {B : Int} (hB : B ≤ 9471) {m : Nat}
    (hm : m < 7) {s : LayerState} (hs : HoldsLevel x B m s) :
    HoldsLevel x B (m + 1) (nttLayer s) := by
  obtain ⟨hlen, hk, hr⟩ := hs
  have hpass := blockPass_holds (h := 8) (m := m) (by omega)
    (S := Within (B + 3328 * (m + 1 : Nat))) (o := fun k => k + 1)
    (w := fun k => nttButterfly (zeta k)) (p := forwardPair twiddle (2 ^ m))
    (g := fun k => butterflies (nttButterfly (zeta k)) (2 ^ (8 - 1 - m)))
    (fun k start r hr hfit => butterflies_spec _ (by omega)) (k := s.k)
    (fun b _ u v hu hv => by
      obtain ⟨⟨h1, h1b⟩, h2, h2b⟩ :=
        nttButterfly_spec (k := 2 ^ m + b) (B := B + 3328 * m) (by omega) hu hv
      rw [iterate_succ_nat, hk, forwardPair, h1, h2]
      push_cast
      exact ⟨by omega, by omega, rfl⟩) hr
  obtain ⟨hk', hr'⟩ := hpass
  have hlen' : s.len = 2 ^ (8 - 1 - m) := hlen
  refine ⟨?_, ?_, ?_⟩
  · simp only [nttLayer, hlen]
    rw [Nat.shiftRight_one, show 7 - m = 7 - (m + 1) + 1 by omega, pow_succ,
      Nat.mul_div_cancel _ (by decide)]
  · simp only [nttLayer, hlen', show N = 2 ^ 8 from rfl]
    rw [hk', iterate_succ_nat, hk]
    ring
  · simp only [nttLayer, hlen', show N = 2 ^ 8 from rfl]
    exact hr'

theorem ntt_spec {x : Nat → F} {B : Int} (hB : B ≤ 9471) {r : List Int}
    (hr : Holds N (fun w : Int => (w : F)) (Within B) x r) :
    Holds N (fun w : Int => (w : F)) (Within 32767) (forward twiddle 8 7 x) (ntt r) := by
  obtain ⟨⟨m, hm, hlen, hk, hlength, hcells⟩, hexit⟩ := whileLoop_rule
    (c := fun s : LayerState => decide (2 ≤ s.len)) (f := nttLayer)
    (I := fun s => ∃ m, m ≤ 7 ∧ HoldsLevel x B m s) (fun s => s.len)
    (by
      rintro s ⟨m, hm, hs⟩ hcond
      have hlen : 2 ≤ s.len := by simpa using hcond
      have hm7 : m < 7 := by
        by_contra hge
        rw [hs.1, show 7 - m = 0 by omega] at hlen
        omega
      refine ⟨⟨m + 1, hm7, nttLayer_holds hB hm7 hs⟩, ?_⟩
      simp only [nttLayer, Nat.shiftRight_one]
      omega)
    (k := N) (s := ⟨128, 1, r⟩)
    ⟨0, by decide, rfl, rfl, by simpa [forward] using hr⟩
    (by simp [N])
  have hm7 : m = 7 := by
    by_contra hne
    have : 2 ^ 1 ≤ 2 ^ (7 - m) := Nat.pow_le_pow_right (by decide) (by omega)
    have := of_decide_eq_false hexit
    omega
  subst hm7
  refine ⟨hlength, fun i hi => ⟨?_, (hcells i hi).2⟩⟩
  have := (hcells i hi).1
  rw [ntt]
  omega

/-- `count` levels of the transform have been undone. -/
def HoldsInverse (x : Nat → F) (count : Nat) (s : LayerState) : Prop :=
  s.len = 2 ^ (count + 1) ∧ s.k = 2 ^ (7 - count) - 1 ∧
    Holds N (fun w : Int => (w : F)) (Within 16383) (inverse twiddle 8 7 count x) s.r

theorem invnttLayer_holds {x : Nat → F} {count : Nat} (hcount : count < 7)
    {s : LayerState} (hs : HoldsInverse x count s) :
    HoldsInverse x (count + 1) (invnttLayer s) := by
  obtain ⟨hlen, hk, hr⟩ := hs
  have hlevel : 7 - count = 7 - 1 - count + 1 := by omega
  have hpass := blockPass_holds (h := 8) (m := 7 - 1 - count) (by omega)
    (S := Within 16383) (o := fun k => k - 1)
    (w := fun k => invnttButterfly (zeta k))
    (p := inversePair twiddle (2 ^ (7 - 1 - count + 1) - 1))
    (g := fun k => butterflies (invnttButterfly (zeta k))
      (2 ^ (8 - 1 - (7 - 1 - count))))
    (fun k start r hr hfit => butterflies_spec _ (by omega)) (k := s.k)
    (fun b _ u v hu hv => by
      obtain ⟨⟨h1, h1b⟩, h2, h2b⟩ := invnttButterfly_spec
        (k := 2 ^ (7 - 1 - count + 1) - 1 - b) hu hv
      rw [iterate_pred_nat, hk, hlevel, inversePair, h1, h2]
      exact ⟨h1b, h2b, rfl⟩) hr
  obtain ⟨hk', hr'⟩ := hpass
  have hlen' : s.len = 2 ^ (8 - 1 - (7 - 1 - count)) := by
    rw [hlen]
    congr 1
    omega
  refine ⟨?_, ?_, ?_⟩
  · simp only [invnttLayer, hlen]
    rw [Nat.shiftLeft_eq, pow_one, ← pow_succ]
  · simp only [invnttLayer, hlen', show N = 2 ^ 8 from rfl]
    rw [hk', iterate_pred_nat, hk, hlevel,
      show 7 - (count + 1) = 7 - 1 - count by omega, pow_succ]
    omega
  · simp only [invnttLayer, hlen', show N = 2 ^ 8 from rfl]
    exact hr'

theorem invntt_spec {x : Nat → F} {r : List Int}
    (hr : Holds N (fun w : Int => (w : F)) (Within 16383) x r) :
    Holds N (fun w : Int => (w : F)) (Within 3328)
      (fun i => montInv * 1441 * inverse twiddle 8 7 7 x i) (invntt r) := by
  obtain ⟨⟨count, hcount, hlen, hk, hlength, hcells⟩, hexit⟩ := whileLoop_rule
    (c := fun s : LayerState => decide (s.len ≤ 128)) (f := invnttLayer)
    (I := fun s => ∃ count, count ≤ 7 ∧ HoldsInverse x count s)
    (fun s => 256 - s.len)
    (by
      rintro s ⟨count, hcount, hs⟩ hcond
      have hlen : s.len ≤ 128 := by simpa using hcond
      have hpos : 0 < s.len := by rw [hs.1]; positivity
      have hlt : count < 7 := by
        by_contra hge
        rw [hs.1, show count = 7 by omega] at hlen
        omega
      refine ⟨⟨count + 1, hlt, invnttLayer_holds hlt hs⟩, ?_⟩
      simp only [invnttLayer, Nat.shiftLeft_eq]
      omega)
    (k := N) (s := ⟨2, 127, r⟩)
    ⟨0, by decide, rfl, rfl, hr⟩
    (by simp [N])
  have hcount7 : count = 7 := by
    by_contra hne
    have : 2 ^ (count + 1) ≤ 2 ^ 7 := Nat.pow_le_pow_right (by decide) (by omega)
    have := of_decide_eq_false hexit
    omega
  subst hcount7
  refine ⟨by rw [invntt, List.length_map, hlength], fun i hi => ?_⟩
  obtain ⟨hb, hv⟩ := hcells i hi
  rw [invntt, getD_map_of_lt _ (by rw [hlength]; exact hi) 0 0]
  generalize (whileLoop _ invnttLayer N _).r.getD i 0 = w at hb hv ⊢
  have hprod := mul_bounds hb (show Within 1441 MONT_SQUARED_DIV_N by decide)
  obtain ⟨hcast, hrange⟩ := fqmul_spec (a := w) (b := MONT_SQUARED_DIV_N) (by omega)
  refine ⟨hrange, ?_⟩
  beta_reduce at hv ⊢
  rw [hcast, hv]
  simp only [MONT_SQUARED_DIV_N]
  push_cast
  ring

/-! ## Polynomials -/

def Poly.Bounded (B : Int) (p : Poly) : Prop := ∀ i, i < N → Within B (p.coeff i)

theorem Poly.Bounded.mono {B B' : Int} (h : B ≤ B') {p : Poly} (hp : p.Bounded B) :
    p.Bounded B' := fun i hi => by
  have := hp i hi
  omega

def Poly.residue (p : Poly) (i : Nat) : F := (p.coeff i : F)

theorem Poly.coeff_map (f : Int → Int) (p : Poly) {i : Nat} (hi : i < N) :
    (p.map f).coeff i = f (p.coeff i) :=
  getD_map_of_lt f (by rw [p.length_eq]; exact hi) 0 0

theorem Poly.coeff_zipWith (f : Int → Int → Int) (p q : Poly) {i : Nat} (hi : i < N) :
    (p.zipWith f q).coeff i = f (p.coeff i) (q.coeff i) :=
  getD_zipWith f (by rw [p.length_eq]; exact hi) (by rw [q.length_eq]; exact hi) 0 0 0

theorem Poly.coeff_ofChunks {m n : Nat} {c : Nat → List Int}
    (hN : m * n = N) (h : ∀ i, i < n → (c i).length = m) {i j : Nat}
    (hi : i < n) (hj : j < m) :
    (Poly.ofChunks m n c hN h).coeff (m * i + j) = (c i).getD j 0 :=
  getD_ofChunks h hi hj 0

theorem polyReduce_spec {p : Poly} (hp : p.Bounded 32767) :
    (polyReduce p).Bounded 1664 ∧
      ∀ i, i < N → (polyReduce p).residue i = p.residue i := by
  constructor
  · intro i hi
    rw [polyReduce, p.coeff_map _ hi]
    exact (barrettReduce_spec (hp i hi)).2
  · intro i hi
    rw [Poly.residue, polyReduce, p.coeff_map _ hi]
    exact (barrettReduce_spec (hp i hi)).1

theorem polyAdd_spec {p q : Poly} {A B : Int} (hp : p.Bounded A) (hq : q.Bounded B)
    (hAB : A + B ≤ 32767) :
    (polyAdd p q).Bounded (A + B) ∧
      ∀ i, i < N → (polyAdd p q).residue i = p.residue i + q.residue i := by
  have hcoeff : ∀ i, i < N → (polyAdd p q).coeff i = p.coeff i + q.coeff i := by
    intro i hi
    have hpi := hp i hi
    have hqi := hq i hi
    rw [polyAdd, p.coeff_zipWith _ _ hi, asI16_eq (by omega) (by omega)]
  constructor
  · intro i hi
    have hpi := hp i hi
    have hqi := hq i hi
    rw [hcoeff i hi]
    omega
  · intro i hi
    rw [Poly.residue, hcoeff i hi, Int.cast_add]
    rfl

theorem polySub_spec {p q : Poly} {A B : Int} (hp : p.Bounded A) (hq : q.Bounded B)
    (hAB : A + B ≤ 32767) :
    (polySub p q).Bounded (A + B) ∧
      ∀ i, i < N → (polySub p q).residue i = p.residue i - q.residue i := by
  have hcoeff : ∀ i, i < N → (polySub p q).coeff i = p.coeff i - q.coeff i := by
    intro i hi
    have hpi := hp i hi
    have hqi := hq i hi
    rw [polySub, p.coeff_zipWith _ _ hi, asI16_eq (by omega) (by omega)]
  constructor
  · intro i hi
    have hpi := hp i hi
    have hqi := hq i hi
    rw [hcoeff i hi]
    omega
  · intro i hi
    rw [Poly.residue, hcoeff i hi, Int.cast_sub]
    rfl

/-- `p` holds the transform of the ring element with coefficients `x`. -/
def Poly.IsNtt (p : Poly) (x : Nat → F) : Prop :=
  ∀ i, i < N → p.residue i = forward twiddle 8 7 x i

theorem polyNtt_spec {p : Poly} (hp : p.Bounded 9471) :
    (polyNtt p).Bounded 1664 ∧ (polyNtt p).IsNtt p.residue := by
  obtain ⟨-, hcells⟩ := ntt_spec (x := p.residue) le_rfl
    ⟨p.length_eq, fun i hi => ⟨hp i hi, rfl⟩⟩
  obtain ⟨hreduced, hres⟩ := polyReduce_spec
    (p := ⟨ntt p.coeffs, (length_ntt _).trans p.length_eq⟩) fun i hi => (hcells i hi).1
  exact ⟨hreduced, fun i hi => (hres i hi).trans (hcells i hi).2⟩

theorem polyInvnttTomont_spec {p : Poly} (hp : p.Bounded 16383) :
    (polyInvnttTomont p).Bounded 3328 ∧
      ∀ i, i < N → (polyInvnttTomont p).residue i =
        montInv * 1441 * inverse twiddle 8 7 7 p.residue i := by
  obtain ⟨-, hcells⟩ := invntt_spec (x := p.residue)
    ⟨p.length_eq, fun i hi => ⟨hp i hi, rfl⟩⟩
  refine ⟨fun i hi => ?_, fun i hi => ?_⟩
  · simpa only [Poly.coeff, polyInvnttTomont] using (hcells i hi).1
  · simpa only [Poly.residue, Poly.coeff, polyInvnttTomont] using (hcells i hi).2

theorem basemul_spec {a0 a1 b0 b1 w : Int} (ha0 : Within 4096 a0) (ha1 : Within 4096 a1)
    (hb0 : Within 4096 b0) (hb1 : Within 4096 b1) (hw : Within 1659 w) :
    let out := basemul a0 a1 b0 b1 w
    ((out.1 : F) = montInv * (a0 * b0 + montInv * w * (a1 * b1)) ∧
        Within 6656 out.1) ∧
      (out.2 : F) = montInv * (a0 * b1 + a1 * b0) ∧ Within 6656 out.2 := by
  have h00 := mul_bounds ha0 hb0
  have h01 := mul_bounds ha0 hb1
  have h10 := mul_bounds ha1 hb0
  have h11 := mul_bounds ha1 hb1
  obtain ⟨h11c, h11b⟩ := fqmul_spec (a := a1) (b := b1) (by omega)
  have hz := mul_bounds h11b hw
  obtain ⟨hzc, hzb⟩ := fqmul_spec (a := fqmul a1 b1) (b := w) (by omega)
  obtain ⟨h00c, h00b⟩ := fqmul_spec (a := a0) (b := b0) (by omega)
  obtain ⟨h01c, h01b⟩ := fqmul_spec (a := a0) (b := b1) (by omega)
  obtain ⟨h10c, h10b⟩ := fqmul_spec (a := a1) (b := b0) (by omega)
  simp only [basemul]
  rw [asI16_eq (by omega) (by omega), asI16_eq (by omega) (by omega), Int.cast_add,
    Int.cast_add, hzc, h11c, h00c, h01c, h10c]
  exact ⟨⟨by ring, by omega⟩, by ring, by omega⟩

/-- The four coefficients of chunk `i`, as two linear residues. -/
theorem polyBasemulMontgomery_spec {a b : Poly} (ha : a.Bounded 4096)
    (hb : b.Bounded 4096) :
    (polyBasemulMontgomery a b).Bounded 6656 ∧ ∀ c, c < 128 →
      (polyBasemulMontgomery a b).residue (c * 2) =
          montInv * (a.residue (c * 2) * b.residue (c * 2) +
            modulus twiddle 7 c * (a.residue (c * 2 + 1) * b.residue (c * 2 + 1))) ∧
        (polyBasemulMontgomery a b).residue (c * 2 + 1) =
          montInv * (a.residue (c * 2) * b.residue (c * 2 + 1) +
            a.residue (c * 2 + 1) * b.residue (c * 2)) := by
  have hcell : ∀ i, i < 64 → ∀ j, j < 4 →
      (polyBasemulMontgomery a b).coeff (4 * i + j) = _ := fun i hi j hj =>
    Poly.coeff_ofChunks (m := 4) (n := N / 4) (by decide) (fun _ _ => rfl) hi hj
  have hneg : ∀ k, Within 1659 (-zeta k) := fun k => by
    have := zeta_bound k
    omega
  have hlow := fun i (hi : i < 64) =>
    basemul_spec (ha (4 * i) (by simp only [N]; omega))
      (ha (4 * i + 1) (by simp only [N]; omega)) (hb (4 * i) (by simp only [N]; omega))
      (hb (4 * i + 1) (by simp only [N]; omega)) (zeta_bound (64 + i))
  have hhigh := fun i (hi : i < 64) =>
    basemul_spec (ha (4 * i + 2) (by simp only [N]; omega))
      (ha (4 * i + 3) (by simp only [N]; omega))
      (hb (4 * i + 2) (by simp only [N]; omega))
      (hb (4 * i + 3) (by simp only [N]; omega)) (hneg (64 + i))
  constructor
  · intro k hk
    refine forall_chunk (m := 4) (n := 64)
      (P := fun k => Within 6656 ((polyBasemulMontgomery a b).coeff k)) (by decide)
      (fun i j hi hj => ?_) hk
    obtain ⟨⟨-, h0⟩, -, h1⟩ := hlow i hi
    obtain ⟨⟨-, h2⟩, -, h3⟩ := hhigh i hi
    rw [hcell i hi j hj]
    interval_cases j
    · exact h0
    · exact h1
    · exact h2
    · exact h3
  · intro c hc
    obtain ⟨⟨h0, -⟩, h1, -⟩ := hlow (c / 2) (by omega)
    obtain ⟨⟨h2, -⟩, h3, -⟩ := hhigh (c / 2) (by omega)
    have hchunk := hcell (c / 2) (by omega)
    rcases Nat.mod_two_eq_zero_or_one c with hpar | hpar
    · have hidx : c * 2 = 4 * (c / 2) := by omega
      have hfirst := hchunk 0 (by decide)
      rw [Nat.add_zero] at hfirst
      simp only [modulus, if_pos hpar, hidx, Poly.residue, hfirst, hchunk 1 (by decide)]
      exact ⟨h0, h1⟩
    · have hidx : c * 2 = 4 * (c / 2) + 2 := by omega
      have hodd : ¬c % 2 = 0 := by omega
      simp only [modulus, if_neg hodd, hidx, Poly.residue, hchunk 2 (by decide),
        hchunk 3 (by decide)]
      refine ⟨?_, h3⟩
      have hmod : -twiddle (2 ^ 6 + c / 2) = montInv * ((-zeta (64 + c / 2) : Int) : F) := by
        rw [twiddle]
        push_cast
        ring
      rw [hmod]
      exact h2

/-! ## Products -/

theorem polyBasemulMontgomery_isNtt {a b : Poly} {x y : Nat → F}
    (ha : a.Bounded 4096) (hb : b.Bounded 4096) (hax : a.IsNtt x) (hby : b.IsNtt y)
    {i : Nat} (hi : i < N) :
    (polyBasemulMontgomery a b).residue i =
      montInv * forward twiddle 8 7 (negacyclic N x y) i := by
  have hc : i / 2 < 128 := by simp only [N] at hi; omega
  obtain ⟨hprod0, hprod1⟩ := (polyBasemulMontgomery_spec ha hb).2 (i / 2) hc
  obtain ⟨hring0, hring1⟩ :=
    twiddles.forward_negacyclic_quadratic (m := 7) le_rfl x y (c := i / 2) hc
  have hN : (2 ^ (7 + 1) : Nat) = N := rfl
  have heven : i / 2 * 2 < N := by simp only [N] at hi ⊢; omega
  have hodd : i / 2 * 2 + 1 < N := by simp only [N] at hi ⊢; omega
  rw [hax _ heven, hby _ heven, hax _ hodd, hby _ hodd] at hprod0 hprod1
  rcases Nat.mod_two_eq_zero_or_one i with hpar | hpar
  · have hidx : i = i / 2 * 2 := by omega
    rw [hidx, hprod0, ← hN, hring0]
  · have hidx : i = i / 2 * 2 + 1 := by omega
    rw [hidx, hprod1, ← hN, hring1]

theorem polyvecBasemulAcc_isNtt {K : Nat} (hK : 0 < K) (hK4 : K ≤ 4) {a b : PolyVec K}
    {x y : Nat → Nat → F}
    (ha : ∀ k, k < K → (a.get k).Bounded 4096 ∧ (a.get k).IsNtt (x k))
    (hb : ∀ k, k < K → (b.get k).Bounded 4096 ∧ (b.get k).IsNtt (y k)) :
    (polyvecBasemulAccMontgomery a b).Bounded 1664 ∧ ∀ i, i < N →
      (polyvecBasemulAccMontgomery a b).residue i = montInv * forward twiddle 8 7
        (fun i => ∑ k ∈ Finset.range K, negacyclic N (x k) (y k) i) i := by
  have hterm := fun k (hk : k < K) =>
    (polyBasemulMontgomery_spec (ha k hk).1 (hb k hk).1).1
  have hvalue := fun k (hk : k < K) i (hi : i < N) =>
    polyBasemulMontgomery_isNtt (ha k hk).1 (hb k hk).1 (ha k hk).2 (hb k hk).2 hi
  -- `k` products have been added, each at most `6656`.
  have hloop := forRange_rule (l := 1) (n := K - 1)
    (f := fun i out => polyAdd out (polyBasemulMontgomery (a.get i) (b.get i)))
    (I := fun k out => k ≤ K ∧ Poly.Bounded (6656 * k) out ∧
      ∀ i, i < N → out.residue i = ∑ j ∈ Finset.range k,
        montInv * forward twiddle 8 7 (negacyclic N (x j) (y j)) i)
    (by
      rintro k out hlo hhi ⟨-, hbound, hval⟩
      have hkK : k < K := by omega
      obtain ⟨hbound', hval'⟩ := polyAdd_spec hbound (hterm k hkK) (by omega)
      refine ⟨hkK, hbound'.mono (by push_cast; omega), fun i hi => ?_⟩
      rw [hval' i hi, hval i hi, hvalue k hkK i hi, Finset.sum_range_succ])
    (s := polyBasemulMontgomery (a.get 0) (b.get 0))
    ⟨hK, (hterm 0 hK).mono (by omega), fun i hi => by
      rw [hvalue 0 hK i hi, Finset.sum_range_one]⟩
  obtain ⟨-, hbound, hval⟩ := hloop
  rw [show 1 + (K - 1) = K by omega] at hbound hval
  obtain ⟨hreduced, hres⟩ := polyReduce_spec (hbound.mono (by omega))
  refine ⟨hreduced, fun i hi => ?_⟩
  rw [polyvecBasemulAccMontgomery, hres i hi, hval i hi, forward_sum, Finset.mul_sum]

theorem polyInvnttTomont_forward {p : Poly} (hp : p.Bounded 16383) {e : Nat → F}
    (he : ∀ i, i < N → p.residue i = montInv * forward twiddle 8 7 e i) {i : Nat}
    (hi : i < N) : (polyInvnttTomont p).residue i = e i := by
  have hN : (2 ^ 8 : Nat) = N := rfl
  rw [← hN] at hi he
  have hundo : inverse twiddle 8 7 7 p.residue i = montInv * (2 ^ 7 * e i) := by
    rw [inverse_congr (by decide) le_rfl he hi, inverse_smul]
    beta_reduce
    rw [twiddles.inverse_forward (by decide) le_rfl e hi]
  have hone : montInv * 1441 * montInv * 2 ^ 7 = 1 := by decide
  rw [(polyInvnttTomont_spec hp).2 i (hN ▸ hi), hundo]
  linear_combination e i * hone

theorem PolyVec.get_ofFn {K : Nat} (f : Nat → Poly) {k : Nat} (hk : k < K) :
    (PolyVec.ofFn K f).get k = f k :=
  getD_map_range f hk _

theorem PolyVec.get_map {K : Nat} (f : Poly → Poly) (v : PolyVec K) {k : Nat}
    (hk : k < K) : (v.map f).get k = f (v.get k) :=
  getD_map_of_lt f (by rw [v.length_eq]; exact hk) _ _

theorem PolyVec.get_zipWith {K : Nat} (f : Poly → Poly → Poly) (v w : PolyVec K)
    {k : Nat} (hk : k < K) : (v.zipWith f w).get k = f (v.get k) (w.get k) :=
  getD_zipWith f (by rw [v.length_eq]; exact hk) (by rw [w.length_eq]; exact hk) _ _ _

/-- Multiplying through the transforms is multiplying in the ring, for one pair of
polynomials and for the sum of up to four. -/
theorem polyInvnttTomont_basemul_eq_negacyclic :
    (∀ a b : Poly, (∀ i, i < N → |a.coeff i| ≤ 9471) →
      (∀ i, i < N → |b.coeff i| ≤ 9471) → ∀ i, i < N →
      ((polyInvnttTomont (polyBasemulMontgomery (polyNtt a) (polyNtt b))).coeff i : F) =
        negacyclic N (fun j => (a.coeff j : F)) (fun j => (b.coeff j : F)) i) ∧
    ∀ K, 0 < K → K ≤ 4 → ∀ a b : PolyVec K,
      (∀ k, k < K → ∀ i, i < N → |(a.get k).coeff i| ≤ 9471) →
      (∀ k, k < K → ∀ i, i < N → |(b.get k).coeff i| ≤ 9471) → ∀ i, i < N →
      ((polyInvnttTomont (polyvecBasemulAccMontgomery (polyvecNtt a)
          (polyvecNtt b))).coeff i : F) =
        ∑ k ∈ Finset.range K, negacyclic N (fun j => ((a.get k).coeff j : F))
          (fun j => ((b.get k).coeff j : F)) i := by
  constructor
  · intro a b ha hb i hi
    obtain ⟨haB, haN⟩ := polyNtt_spec (p := a) fun i hi => abs_le.mp (ha i hi)
    obtain ⟨hbB, hbN⟩ := polyNtt_spec (p := b) fun i hi => abs_le.mp (hb i hi)
    have haB := haB.mono (show (1664 : Int) ≤ 4096 by decide)
    have hbB := hbB.mono (show (1664 : Int) ≤ 4096 by decide)
    exact polyInvnttTomont_forward
      ((polyBasemulMontgomery_spec haB hbB).1.mono (by decide))
      (fun i hi => polyBasemulMontgomery_isNtt haB hbB haN hbN hi) hi
  · intro K hK hK4 a b ha hb i hi
    have hntt : ∀ v : PolyVec K,
        (∀ k, k < K → ∀ i, i < N → |(v.get k).coeff i| ≤ 9471) → ∀ k, k < K →
        ((polyvecNtt v).get k).Bounded 4096 ∧
          ((polyvecNtt v).get k).IsNtt (v.get k).residue := by
      intro v hv k hk
      rw [polyvecNtt, v.get_map _ hk]
      obtain ⟨hbound, hval⟩ := polyNtt_spec fun i hi => abs_le.mp (hv k hk i hi)
      exact ⟨hbound.mono (by decide), hval⟩
    obtain ⟨hbound, hval⟩ :=
      polyvecBasemulAcc_isNtt hK hK4 (hntt a ha) (hntt b hb)
    exact polyInvnttTomont_forward (hbound.mono (by decide)) hval hi

def monomial (c : Int) (k : Nat) : Poly :=
  .ofChunks 1 N (fun i => [if i = k then c else 0]) (Nat.one_mul N) fun _ _ => rfl

theorem coeff_monomial (c : Int) {k : Nat} (hk : k < N) (i : Nat) :
    (monomial c k).coeff i = if i = k then c else 0 := by
  rcases Nat.lt_or_ge i N with hi | hi
  · have hcell := Poly.coeff_ofChunks (c := fun i => [if i = k then c else 0])
      (Nat.one_mul N) (fun _ _ => rfl) hi (show 0 < 1 by decide)
    rw [Nat.one_mul, Nat.add_zero] at hcell
    exact hcell
  · rw [Poly.coeff, List.getD_eq_default _ _ (by rw [Poly.length_eq]; exact hi),
      if_neg (by omega)]

theorem abs_coeff_monomial {c : Int} (hc : |c| ≤ 9471) {k : Nat} (hk : k < N)
    (i : Nat) : |(monomial c k).coeff i| ≤ 9471 := by
  rw [coeff_monomial c hk]
  split
  · exact hc
  · decide

theorem polyInvnttTomont_basemul_monomials :
    ((polyInvnttTomont (polyBasemulMontgomery (polyNtt (monomial 3 200))
        (polyNtt (monomial 5 100)))).coeff 44 : F) = -15 ∧
      ((polyInvnttTomont (polyvecBasemulAccMontgomery
        (polyvecNtt (.ofFn 3 fun _ => monomial 3 200))
        (polyvecNtt (.ofFn 3 fun _ => monomial 5 100)))).coeff 44 : F) = -45 := by
  have hvec : ∀ c k, ∀ j, j < 3 →
      (PolyVec.ofFn 3 fun _ => monomial c k).get j = monomial c k :=
    fun c k j hj => PolyVec.get_ofFn _ hj
  constructor
  · rw [polyInvnttTomont_basemul_eq_negacyclic.1 _ _
      (fun i _ => abs_coeff_monomial (by decide) (by decide) i)
      (fun i _ => abs_coeff_monomial (by decide) (by decide) i) 44 (by decide)]
    simp only [coeff_monomial _ (show 200 < N by decide),
      coeff_monomial _ (show 100 < N by decide)]
    decide +kernel
  · rw [polyInvnttTomont_basemul_eq_negacyclic.2 3 (by decide) (by decide) _ _
      (fun k hk i _ => by
        rw [hvec 3 200 k hk]; exact abs_coeff_monomial (by decide) (by decide) i)
      (fun k hk i _ => by
        rw [hvec 5 100 k hk]; exact abs_coeff_monomial (by decide) (by decide) i)
      44 (by decide)]
    rw [Finset.sum_congr rfl fun k hk => by
      rw [hvec 3 200 k (Finset.mem_range.mp hk), hvec 5 100 k (Finset.mem_range.mp hk)]]
    simp only [coeff_monomial _ (show 200 < N by decide),
      coeff_monomial _ (show 100 < N by decide)]
    decide +kernel

end Stdx.MlKem
