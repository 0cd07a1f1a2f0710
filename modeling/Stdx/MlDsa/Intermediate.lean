import Stdx.MlDsa.Transform

/-!
# No value of the transforms reaches `q`

The transforms and the pointwise product again, without an answer where a field operation
returns a value that is not below `q`.  They have one for every reduced polynomial.  The layers of
`ntt_scalar` and `invntt_scalar` share one index into the table, so a pass is checked from the
index the pass before it has left.
-/

namespace Stdx.MlDsa

open Stdx.Foundation

/-! ## Checked operations -/

def below (x : Nat) : Option Nat := if x < Q then some x else none

def nttButterflyChecked (zeta u v : Nat) : Option (Nat × Nat) :=
  (below (fieldMontgomeryMul zeta v)).bind fun t =>
    (below (fieldSub u t)).bind fun upper =>
      (below (fieldAdd u t)).map fun lower => (lower, upper)

def invnttButterflyChecked (zeta u v : Nat) : Option (Nat × Nat) :=
  (below (fieldAdd u v)).bind fun lower =>
    (below (fieldSub v u)).bind fun difference =>
      (below (fieldMontgomeryMul zeta difference)).map fun upper => (lower, upper)

def butterflyPairsChecked (bf : Nat → Nat → Option (Nat × Nat)) (len start : Nat)
    (r : List Nat) : Option (List Nat) :=
  forRange 0 (len / 2) (fun i r =>
    let j := start + 2 * i
    (r.bind (butterflyChecked bf len j)).bind (butterflyChecked bf len (j + 1))) (some r)

def butterflies4Checked (bf : Nat → Nat → Option (Nat × Nat)) (start : Nat)
    (r : List Nat) : Option (List Nat) :=
  (((butterflyChecked bf 4 start r).bind (butterflyChecked bf 4 (start + 1))).bind
    (butterflyChecked bf 4 (start + 2))).bind (butterflyChecked bf 4 (start + 3))

def butterflies2Checked (bf : Nat → Nat → Option (Nat × Nat)) (start : Nat)
    (r : List Nat) : Option (List Nat) :=
  (butterflyChecked bf 2 start r).bind (butterflyChecked bf 2 (start + 1))

def butterflies1Checked (bf : Nat → Nat → Option (Nat × Nat)) (start : Nat)
    (r : List Nat) : Option (List Nat) :=
  butterflyChecked bf 1 start r

def nttLayerChecked (s : LayerState) : Option LayerState :=
  (blockPassChecked N s.len (fun m => m + 1)
    (fun m => butterflyPairsChecked (nttButterflyChecked (zeta (m + 1))) s.len) s.m s.r).map
    fun pass => ⟨s.len / 2, pass.1, pass.2⟩

def nttCoeffsChecked (f : List Nat) : Option (List Nat) :=
  (whileLoop (fun s : Option LayerState => s.elim false fun s => decide (8 ≤ s.len))
    (fun s => s.bind nttLayerChecked) N (some ⟨128, 0, f⟩)).bind fun s =>
  (blockPassChecked N 4 (fun m => m + 1)
    (fun m => butterflies4Checked (nttButterflyChecked (zeta (m + 1)))) s.m s.r).bind fun p =>
  (blockPassChecked N 2 (fun m => m + 1)
    (fun m => butterflies2Checked (nttButterflyChecked (zeta (m + 1)))) p.1 p.2).bind fun p =>
  (blockPassChecked N 1 (fun m => m + 1)
    (fun m => butterflies1Checked (nttButterflyChecked (zeta (m + 1)))) p.1 p.2).map (·.2)

def invnttLayerChecked (s : LayerState) : Option LayerState :=
  (blockPassChecked N s.len (fun m => m - 1)
    (fun m => butterflyPairsChecked (invnttButterflyChecked (zeta m)) s.len) s.m s.r).map
    fun pass => ⟨s.len * 2, pass.1, pass.2⟩

def invnttCoeffsChecked (f : List Nat) : Option (List Nat) :=
  (blockPassChecked N 1 (fun m => m - 1)
    (fun m => butterflies1Checked (invnttButterflyChecked (zeta m))) 255 f).bind fun p =>
  (blockPassChecked N 2 (fun m => m - 1)
    (fun m => butterflies2Checked (invnttButterflyChecked (zeta m))) p.1 p.2).bind fun p =>
  (blockPassChecked N 4 (fun m => m - 1)
    (fun m => butterflies4Checked (invnttButterflyChecked (zeta m))) p.1 p.2).bind fun p =>
  (whileLoop (fun s : Option LayerState => s.elim false fun s => decide (s.len < N))
    (fun s => s.bind invnttLayerChecked) N (some ⟨8, p.1, p.2⟩)).bind fun s =>
  s.r.mapM fun c => below (fieldMontgomeryMul c N_INV)

def PolyIn.ofCoeffs {d : Domain} (coeffs : List Nat) : Option (PolyIn d) :=
  if h : coeffs.length = N then some ⟨coeffs, h⟩ else none

def nttChecked (f : Poly) : Option NttPoly :=
  (nttCoeffsChecked f.coeffs).bind PolyIn.ofCoeffs

def invnttChecked (f : NttPoly) : Option Poly :=
  (invnttCoeffsChecked f.coeffs).bind PolyIn.ofCoeffs

def nttMulChecked (a b : NttPoly) : Option NttPoly :=
  ((a.coeffs.zip b.coeffs).mapM fun p => below (fieldMontgomeryMul p.1 p.2)).bind
    PolyIn.ofCoeffs

/-! ## Butterflies -/

theorem below_eq {x : Nat} (hx : x < Q) : below x = some x := if_pos hx

theorem nttButterflyChecked_eq (m : Nat) {u v : Nat} (hu : u < Q) (hv : v < Q) :
    nttButterflyChecked (zeta m) u v = some (nttButterfly (zeta m) u v) := by
  have ht := (fieldMontgomeryMul_spec (mul_le_of_lt (zeta_lt m) hv)).1
  rw [nttButterflyChecked, nttButterfly, below_eq ht, Option.bind_some,
    below_eq (fieldSub_spec hu ht).1, Option.bind_some, below_eq (fieldAdd_spec hu ht).1,
    Option.map_some]

theorem invnttButterflyChecked_eq (m : Nat) {u v : Nat} (hu : u < Q) (hv : v < Q) :
    invnttButterflyChecked (zeta m) u v = some (invnttButterfly (zeta m) u v) := by
  have hd := (fieldSub_spec hv hu).1
  rw [invnttButterflyChecked, invnttButterfly, below_eq (fieldAdd_spec hu hv).1,
    Option.bind_some, below_eq hd, Option.bind_some,
    below_eq (fieldMontgomeryMul_spec (mul_le_of_lt (zeta_lt m) hd)).1, Option.map_some]

theorem butterflyPairsChecked_eq (bf : Nat → Nat → Option (Nat × Nat)) {len : Nat}
    (hlen : len % 2 = 0) (start : Nat) (r : List Nat) :
    butterflyPairsChecked bf len start r = butterfliesChecked bf len start r := by
  have hpairs := forRange_pairs
    (fun j (r : Option (List Nat)) => r.bind (butterflyChecked bf len j)) start (len / 2)
    (some r)
  rw [butterflyPairsChecked, hpairs, butterfliesChecked, show 2 * (len / 2) = len by omega]

/-! ## Passes -/

theorem passChecked_eq {x : Nat → F} {m w : Nat} (hm : m < 8) (hw : w = 2 ^ (7 - m))
    {o : Nat → Nat} {g : Nat → Nat → Nat → Nat × Nat}
    {check : Nat → Nat → Nat → Option (Nat × Nat)}
    (hcheck : ∀ k u v, u < Q → v < Q → check k u v = some (g k u v))
    {b : Nat → Nat → List Nat → List Nat}
    (hb : ∀ k start r, b k start r = butterflies (g k) w start r)
    {c : Nat → Nat → List Nat → Option (List Nat)}
    (hc : ∀ k start r, c k start r = butterfliesChecked (check k) w start r)
    (k : Nat) {r : List Nat} (hr : HoldsValues x r) :
    blockPassChecked N w o c k r = some (blockPass N w o b k r) := by
  obtain ⟨hlength, hcells⟩ := hr
  have hfill : N = 2 ^ m * (2 * w) := hw ▸ blocks_fill (h := 8) hm
  have hblocks : b = fun k => butterflies (g k) w :=
    funext fun k => funext fun start => funext fun r => hb k start r
  have hchecks : c = fun k => butterfliesChecked (check k) w :=
    funext fun k => funext fun start => funext fun r => hc k start r
  rw [hblocks, hchecks]
  exact blockPassChecked_eq (P := (· < Q)) (by rw [hw]; positivity) hfill
    (fun b _ u v hu hv => hcheck _ u v hu hv) hlength fun i hi => (hcells i hi).1

theorem nttPassChecked_eq {x : Nat → F} {m w : Nat} (hm : m < 8) (hw : w = 2 ^ (7 - m))
    {b : (Nat → Nat → Nat × Nat) → Nat → List Nat → List Nat}
    (hb : ∀ bf start r, b bf start r = butterflies bf w start r)
    {c : (Nat → Nat → Option (Nat × Nat)) → Nat → List Nat → Option (List Nat)}
    (hc : ∀ bf start r, c bf start r = butterfliesChecked bf w start r)
    (k : Nat) {r : List Nat} (hr : HoldsValues x r) :
    blockPassChecked N w (fun m => m + 1)
        (fun m => c (nttButterflyChecked (zeta (m + 1)))) k r =
      some (blockPass N w (fun m => m + 1) (fun m => b (nttButterfly (zeta (m + 1)))) k r) :=
  passChecked_eq hm hw (fun k _ _ hu hv => nttButterflyChecked_eq (k + 1) hu hv)
    (fun _ start r => hb _ start r) (fun _ start r => hc _ start r) k hr

theorem invnttPassChecked_eq {x : Nat → F} {m w : Nat} (hm : m < 8) (hw : w = 2 ^ (7 - m))
    {b : (Nat → Nat → Nat × Nat) → Nat → List Nat → List Nat}
    (hb : ∀ bf start r, b bf start r = butterflies bf w start r)
    {c : (Nat → Nat → Option (Nat × Nat)) → Nat → List Nat → Option (List Nat)}
    (hc : ∀ bf start r, c bf start r = butterfliesChecked bf w start r)
    (k : Nat) {r : List Nat} (hr : HoldsValues x r) :
    blockPassChecked N w (fun m => m - 1)
        (fun m => c (invnttButterflyChecked (zeta m))) k r =
      some (blockPass N w (fun m => m - 1) (fun m => b (invnttButterfly (zeta m))) k r) :=
  passChecked_eq hm hw (fun k _ _ hu hv => invnttButterflyChecked_eq k hu hv)
    (fun _ start r => hb _ start r) (fun _ start r => hc _ start r) k hr

/-! ## Transforms -/

theorem nttLayerChecked_eq {x : Nat → F} {m : Nat} {s : LayerState} (h : NttAt x m s) :
    nttLayerChecked s = some (nttLayer s) := by
  have heven := h.even_len
  have hle := h.layer_le
  rw [nttLayerChecked, nttPassChecked_eq (by omega) h.len_eq
    (fun bf start r => butterflyPairs_eq bf (by omega) start r)
    (fun bf start r => butterflyPairsChecked_eq bf (by omega) start r) _ h.holds]
  rfl

theorem nttCoeffsChecked_eq {x : Nat → F} {f : List Nat} (hf : HoldsValues x f) :
    nttCoeffsChecked f = some (nttCoeffs f) := by
  have hloop := fun fuel => (whileLoop_lift (c := fun s : LayerState => decide (8 ≤ s.len))
    (f := nttLayer) (g := nttLayerChecked) (I := fun s => ∃ m, NttAt x m s)
    (by
      rintro s ⟨m, hat⟩ hcond
      have hlen : 8 ≤ s.len := by simpa using hcond
      exact ⟨nttLayerChecked_eq hat, m + 1, hat.step (hat.layer_lt hlen)⟩)
    fuel ⟨0, NttAt.start hf⟩).1
  obtain ⟨-, -, hk, hr⟩ := nttLoop_at hf
  obtain ⟨hk6, hr6⟩ := nttPass_holds (m := 5) (w := 4) (by decide) rfl hk
    (fun _ => butterflies4_eq _) hr
  obtain ⟨-, hr7⟩ := nttPass_holds (m := 6) (w := 2) (by decide) rfl hk6
    (fun _ => butterflies2_eq _) hr6
  rw [nttCoeffsChecked, hloop, Option.bind_some,
    nttPassChecked_eq (m := 5) (w := 4) (c := butterflies4Checked) (by decide) rfl butterflies4_eq
      (fun _ _ _ => rfl) _ hr,
    Option.bind_some,
    nttPassChecked_eq (m := 6) (w := 2) (c := butterflies2Checked) (by decide) rfl butterflies2_eq
      (fun _ _ _ => rfl) _ hr6,
    Option.bind_some,
    nttPassChecked_eq (m := 7) (w := 1) (c := butterflies1Checked) (by decide) rfl butterflies1_eq
      (fun _ _ _ => rfl) _ hr7]
  rfl

theorem invnttLayerChecked_eq {x : Nat → F} {n : Nat} {s : LayerState} (h : InvnttAt x n s)
    (hn : 0 < n) (hlt : n < 8) : invnttLayerChecked s = some (invnttLayer s) := by
  have heven := h.even_len hn
  have hlen : s.len = 2 ^ (7 - (7 - n)) := by
    rw [h.len_eq]
    congr 1
    omega
  rw [invnttLayerChecked, invnttPassChecked_eq (m := 7 - n) (by omega) hlen
    (fun bf start r => butterflyPairs_eq bf (by omega) start r)
    (fun bf start r => butterflyPairsChecked_eq bf (by omega) start r) _ h.holds]
  rfl

theorem invnttCoeffsChecked_eq {x : Nat → F} {f : List Nat} (hf : HoldsValues x f) :
    invnttCoeffsChecked f = some (invnttCoeffs f) := by
  obtain ⟨hk1, hr1⟩ := invnttPass_holds (x := x) (n := 0) (w := 1) (by decide) rfl
    (k := 255) rfl (fun _ => butterflies1_eq _) hf
  obtain ⟨hk2, hr2⟩ := invnttPass_holds (n := 1) (w := 2) (by decide) rfl hk1
    (fun _ => butterflies2_eq _) hr1
  obtain ⟨hk3, hr3⟩ := invnttPass_holds (n := 2) (w := 4) (by decide) rfl hk2
    (fun _ => butterflies4_eq _) hr2
  have hloop := (whileLoop_lift (c := fun s : LayerState => decide (s.len < N))
    (f := invnttLayer) (g := invnttLayerChecked)
    (I := fun s => ∃ n, 0 < n ∧ InvnttAt x n s)
    (by
      rintro s ⟨n, hpos, hat⟩ hcond
      have hlt := hat.layer_lt (by simpa using hcond)
      exact ⟨invnttLayerChecked_eq hat hpos hlt, n + 1, by omega, hat.step hpos hlt⟩)
    N (s := ⟨8, _, _⟩) ⟨3, by decide, by decide, rfl, hk3, hr3⟩).1
  obtain ⟨hlength, hcells⟩ := invnttLoop_holds hk3 hr3
  rw [invnttCoeffsChecked,
    invnttPassChecked_eq (m := 7) (w := 1) (c := butterflies1Checked)
      (by decide) rfl butterflies1_eq
      (fun _ _ _ => rfl) 255 hf,
    Option.bind_some,
    invnttPassChecked_eq (m := 6) (w := 2) (c := butterflies2Checked)
      (by decide) rfl butterflies2_eq
      (fun _ _ _ => rfl) _ hr1,
    Option.bind_some,
    invnttPassChecked_eq (m := 5) (w := 4) (c := butterflies4Checked)
      (by decide) rfl butterflies4_eq
      (fun _ _ _ => rfl) _ hr2,
    Option.bind_some, hloop, Option.bind_some]
  have hscale := mapM_of_forall (f := fun c => below (fieldMontgomeryMul c N_INV))
    (g := fun c => fieldMontgomeryMul c N_INV) fun c hc => by
      obtain ⟨i, hi, rfl⟩ := List.mem_iff_getElem.mp hc
      have hlt := (hcells i (hlength ▸ hi)).1
      rw [List.getD_eq_getElem _ _ hi] at hlt
      exact below_eq (fieldMontgomeryMul_spec (mul_le_of_lt hlt (show N_INV < Q by decide))).1
  rw [hscale, invnttCoeffs]

/-! ## Polynomials -/

section Polynomials

variable {d : Domain}

theorem PolyIn.ofCoeffs_eq (p : PolyIn d) : PolyIn.ofCoeffs p.coeffs = some p :=
  dif_pos p.length_eq

theorem PolyIn.Reduced.holds {p : PolyIn d} (hp : p.Reduced) : HoldsValues p.values p.coeffs :=
  ⟨p.length_eq, fun i hi => ⟨hp i hi, rfl⟩⟩

theorem PolyIn.Reduced.mem {p : PolyIn d} (hp : p.Reduced) {c : Nat} (hc : c ∈ p.coeffs) :
    c < Q := by
  obtain ⟨i, hi, rfl⟩ := List.mem_iff_getElem.mp hc
  have hlt := hp i (p.length_eq ▸ hi)
  rwa [PolyIn.coeff, List.getD_eq_getElem _ _ hi] at hlt

theorem nttChecked_eq {f : Poly} (hf : f.Reduced) : nttChecked f = some (ntt f) := by
  have hcoeffs : (ntt f).coeffs = nttCoeffs f.coeffs := by rw [ntt]
  rw [nttChecked, nttCoeffsChecked_eq hf.holds, Option.bind_some, ← hcoeffs, PolyIn.ofCoeffs_eq]

theorem invnttChecked_eq {f : NttPoly} (hf : f.Reduced) : invnttChecked f = some (invntt f) := by
  have hcoeffs : (invntt f).coeffs = invnttCoeffs f.coeffs := by rw [invntt]
  rw [invnttChecked, invnttCoeffsChecked_eq hf.holds, Option.bind_some, ← hcoeffs,
    PolyIn.ofCoeffs_eq]

theorem nttMulChecked_eq {a b : NttPoly} (ha : a.Reduced) (hb : b.Reduced) :
    nttMulChecked a b = some (nttMul a b) := by
  have hcoeffs : (a.coeffs.zip b.coeffs).map (fun p => fieldMontgomeryMul p.1 p.2) =
      (nttMul a b).coeffs :=
    @List.map_uncurry_zip_eq_zipWith _ _ _ fieldMontgomeryMul a.coeffs b.coeffs
  have hproducts := mapM_of_forall (f := fun p : Nat × Nat => below (fieldMontgomeryMul p.1 p.2))
    (g := fun p => fieldMontgomeryMul p.1 p.2) fun p (hp : p ∈ a.coeffs.zip b.coeffs) => by
      have hab := mul_le_of_lt (ha.mem (List.of_mem_zip hp).1) (hb.mem (List.of_mem_zip hp).2)
      exact below_eq (fieldMontgomeryMul_spec hab).1
  rw [nttMulChecked, hproducts, Option.bind_some, hcoeffs, PolyIn.ofCoeffs_eq]

theorem PolyIn.ext_coeff {p q : PolyIn d} (h : ∀ i, i < N → p.coeff i = q.coeff i) : p = q := by
  obtain ⟨pcoeffs, hp⟩ := p
  obtain ⟨qcoeffs, hq⟩ := q
  congr 1
  exact ext_getD (hp.trans hq.symm) 0 fun i hi => h i (hp ▸ hi)

end Polynomials

/-- Nothing leaves the range below `q`, the transforms are inverse and the pointwise product is
the negacyclic one. -/
theorem scalar_transforms_exact :
    (∀ f : Poly, f.Reduced → nttChecked f = some (ntt f)) ∧
    (∀ f : NttPoly, f.Reduced → invnttChecked f = some (invntt f)) ∧
    (∀ f g : NttPoly, f.Reduced → g.Reduced → nttMulChecked f g = some (nttMul f g)) ∧
    ∀ a b : Poly, a.Reduced → b.Reduced →
      invntt (ntt a) = a ∧
      (invntt (nttMul (ntt a) (ntt b))).Reduced ∧
      ∀ i, i < N → (invntt (nttMul (ntt a) (ntt b))).values i =
        negacyclic N a.values b.values i := by
  refine ⟨fun f hf => nttChecked_eq hf, fun f hf => invnttChecked_eq hf,
    fun f g hf hg => nttMulChecked_eq hf hg, fun a b ha hb => ?_⟩
  obtain ⟨hreduced, hvalues⟩ := invntt_spec (ntt_isNtt ha)
  obtain ⟨hproduct, hnegacyclic⟩ := invntt_spec (nttMul_isNtt (ntt_isNtt ha) (ntt_isNtt hb))
  exact ⟨PolyIn.ext_coeff fun i hi => PolyIn.ext_values hreduced ha hvalues hi, hproduct,
    hnegacyclic⟩

/-- The polynomial whose coefficients are all one. -/
theorem scalar_transforms_exact_ones :
    nttChecked ⟨List.replicate N 1, List.length_replicate⟩ =
        some (ntt ⟨List.replicate N 1, List.length_replicate⟩) ∧
      invntt (ntt ⟨List.replicate N 1, List.length_replicate⟩) =
        ⟨List.replicate N 1, List.length_replicate⟩ := by
  have hreduced : (⟨List.replicate N 1, List.length_replicate⟩ : Poly).Reduced := fun i hi => by
    simp [PolyIn.coeff, List.getD_eq_getElem?_getD, hi, Q]
  exact ⟨scalar_transforms_exact.1 _ hreduced,
    (scalar_transforms_exact.2.2.2 _ _ hreduced hreduced).1⟩
end Stdx.MlDsa
