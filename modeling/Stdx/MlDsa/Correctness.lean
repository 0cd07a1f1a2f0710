import Stdx.MlDsa.Sampling
import Stdx.MlDsa.Hints

/-!
# Signatures verify

Whatever the signer returns the verifier accepts.  The verifier's `A z - c t1` is the
signer's `w - c s2 + c t0`, the hint takes `c t0` away again and the checks of the
signer leave `c s2` no room to change a high part.
-/

namespace Stdx.MlDsa

open Stdx.Foundation
open Finset (range)

variable {H : Shake} {K L : Nat}

/-! ## The ring identity -/

theorem approx_eq {a y s1 z : Nat → Nat → F} {c s2 t0 t1 : Nat → F}
    (hz : ∀ l < L, ∀ i < N, z l i = y l i + negacyclic N c (s1 l) i)
    (ht : ∀ i < N, t1 i + t0 i = s2 i + ∑ l ∈ range L, negacyclic N (a l) (s1 l) i)
    {i : Nat} (hi : i < N) :
    (∑ l ∈ range L, negacyclic N (a l) (z l) i) - negacyclic N c t1 i =
      (∑ l ∈ range L, negacyclic N (a l) (y l) i) - negacyclic N c s2 i + negacyclic N c t0 i := by
  have hkey : toRing N t1 + toRing N t0 =
      toRing N s2 + ∑ l ∈ range L, toRing N (a l) * toRing N (s1 l) := by
    rw [← toRing_add, toRing_congr ht, toRing_add, toRing_sum]
    simp only [toRing_negacyclic]
  have hresponse : ∀ l ∈ range L, toRing N (a l) * toRing N (z l) =
      toRing N (a l) * toRing N (y l) + toRing N c * (toRing N (a l) * toRing N (s1 l)) := by
    intro l hl
    rw [toRing_congr (hz l (Finset.mem_range.mp hl)), toRing_add, toRing_negacyclic]
    ring
  refine toRing_inj (R := F) (n := N) (by decide) (x := fun i =>
    (∑ l ∈ range L, negacyclic N (a l) (z l) i) - negacyclic N c t1 i) (y := fun i =>
    (∑ l ∈ range L, negacyclic N (a l) (y l) i) - negacyclic N c s2 i + negacyclic N c t0 i) ?_ hi
  simp only [toRing_add, toRing_sub, toRing_sum, toRing_negacyclic]
  rw [Finset.sum_congr rfl hresponse, Finset.sum_add_distrib, ← Finset.mul_sum]
  linear_combination (-toRing N c) * hkey

theorem accumulate_isNtt {acc : NttPoly} {row v : Nat → NttPoly} {x : Nat → F}
    {u w : Nat → Nat → F} (hacc : acc.IsNtt x) (hrow : ∀ l < L, (row l).IsNtt (u l))
    (hv : ∀ l < L, (v l).IsNtt (w l)) :
    (accumulate L acc row v).IsNtt fun i =>
      x i + ∑ l ∈ range L, negacyclic N (u l) (w l) i := by
  have hloop := forRange_rule (f := fun j acc => nttAdd acc (nttMul (row j) (v j)))
    (I := fun j acc => acc.IsNtt fun i => x i + ∑ l ∈ range j, negacyclic N (u l) (w l) i)
    (l := 0) (n := L) (fun j acc _ hj hacc => ?_) (s := acc) (by simpa using hacc)
  · rwa [Nat.zero_add] at hloop
  · have hj : j < L := by omega
    refine (nttAdd_isNtt hacc (nttMul_isNtt (hrow j hj) (hv j hj))).congr fun i _ => ?_
    rw [Finset.sum_range_succ, add_assoc]

/-! ## Keys -/

/-- What key generation leaves, with the values it does not keep. -/
structure Generated (H : Shake) (fuel : Nat) (params : MlDsaParams K L) (key : MlDsaKeyMaterial)
    (rho : Bytes) (s1 s2 t0 : Nat → Poly) (t1 : Nat → Nat → Nat) : Prop where
  rho_length : rho.length = 32
  matrix : ∃ matrix, computeMatrixA H fuel K L rho = some matrix ∧
    key.a = fun i j => (matrix.getD i []).getD j (.zero _)
  s1_small : ∀ r < L, ∀ i < N, Small params.eta ((s1 r).coeff i)
  s2_small : ∀ r < K, ∀ i < N, Small params.eta ((s2 r).coeff i)
  s1Hat : key.s1Hat = fun r => ntt (s1 r)
  s2Hat : key.s2Hat = fun r => ntt (s2 r)
  t0Hat : key.t0Hat = fun r => ntt (t0 r)
  t0_reduced : ∀ r < K, (t0 r).Reduced
  t1_lt : ∀ r < K, ∀ i < N, t1 r i < 2 ^ 10 ∧ t1 r i <<< D < Q
  sum : ∀ r < K, ∀ i < N, ((t1 r i <<< D : Nat) : F) + (t0 r).values i =
    (s2 r).values i + ∑ l ∈ range L, negacyclic N (ringOf (key.a r l)) (s1 l).values i
  pk : key.pk = pkEncode K rho t1
  tr : key.tr = computePubkeyHash H key.pk

theorem length_squeeze (stream : Nat → UInt8) (start len : Nat) :
    (squeeze stream start len).length = len := by
  rw [squeeze, List.length_map, List.length_range]

theorem Small.reduced {eta : Nat} {p : Poly} (h : ∀ i < N, Small eta (p.coeff i)) : p.Reduced :=
  fun i hi => (h i hi).1

theorem generated_of_fromSeed {fuel : Nat} {params : MlDsaParams K L} {seed : Bytes}
    {key : MlDsaKeyMaterial} (h : fromSeed H fuel params seed = some key) :
    ∃ rho s1 s2 t0 t1, Generated H fuel params key rho s1 s2 t0 t1 := by
  simp only [fromSeed, Option.bind_eq_bind, Option.bind_eq_some_iff, Option.some.injEq] at h
  obtain ⟨matrix, hmatrix, s1, hs1, s2, hs2, rfl⟩ := h
  have hsmall1 : ∀ r < L, ∀ i < N, Small params.eta ((s1.getD r (.zero _)).coeff i) :=
    fun r hr i hi => sampleBoundedPoly_small ((forCollect_some hs1 (.zero _)).2 r hr) hi
  have hsmall2 : ∀ r < K, ∀ i < N, Small params.eta ((s2.getD r (.zero _)).coeff i) :=
    fun r hr i hi => sampleBoundedPoly_small ((forCollect_some hs2 (.zero _)).2 r hr) hi
  have hsum : ∀ r < K, (accumulate L (ntt (s2.getD r (.zero _)))
      (fun j => (matrix.getD r []).getD j (.zero _)) fun j => ntt (s1.getD j (.zero _))).IsNtt
      fun i => (s2.getD r (.zero _)).values i + ∑ l ∈ range L, negacyclic N
        (ringOf ((matrix.getD r []).getD l (.zero _))) (s1.getD l (.zero _)).values i := by
    intro r hr
    refine accumulate_isNtt (ntt_isNtt (Small.reduced (hsmall2 r hr))) (fun l hl => ?_)
      fun l hl => ?_
    · exact isNtt_ringOf (computeMatrixA_reduced hmatrix hr hl)
    · exact ntt_isNtt (Small.reduced (hsmall1 l hl))
  have hround := fun r hr i hi =>
    power2round_spec ((invntt_spec (hsum r hr)).1 i hi)
  refine ⟨_, fun r => s1.getD r (.zero _), fun r => s2.getD r (.zero _), _, _, {
    rho_length := length_squeeze _ _ _
    matrix := ⟨matrix, hmatrix, rfl⟩
    s1_small := hsmall1
    s2_small := hsmall2
    s1Hat := rfl
    s2Hat := rfl
    t0Hat := rfl
    t0_reduced := fun r hr i hi => ?_
    t1_lt := fun r hr i hi => ⟨(hround r hr i hi).1, (hround r hr i hi).2.1⟩
    sum := fun r hr i hi => ?_
    pk := rfl
    tr := rfl }⟩
  · rw [PolyIn.coeff_map _ _ hi]
    exact (hround r hr i hi).2.2.1
  · rw [PolyIn.values, PolyIn.coeff_map _ _ hi, ← (hround r hr i hi).2.2.2]
    exact (invntt_spec (hsum r hr)).2 i hi

/-! ## The signature codec -/

section SignatureCodec

variable (params : MlDsaParams K L)

theorem Rounds.of_params : Rounds params.gamma2Den params.gamma2 := params.gamma2_eq

theorem length_bitpack (z : Poly) : (bitpack z params.gamma1Bits).length = params.polyzBytes := by
  obtain ⟨hbits, -, hbytes⟩ | ⟨hbits, -, hbytes⟩ := params.gamma1_eq
  · rw [hbits, hbytes]
    exact packing18.length_packAll (N / 4) fun i => zField 17 (z.coeff i)
  · rw [hbits, hbytes]
    exact packing20.length_packAll (N / 2) fun i => zField 19 (z.coeff i)

theorem bitunpack_reduced (octet : Nat → UInt8) : (bitunpack octet params.gamma1Bits).Reduced := by
  have hfield (bits : Nat) (hbits : bits ≤ 19) (w : Nat) :
      fieldSubToMontgomery (2 ^ bits) (w &&& (2 ^ (bits + 1) - 1)) < Q := by
    have hpow := two_pow_le hbits
    have hlt : w &&& (2 ^ (bits + 1) - 1) < 2 * 2 ^ bits := by
      rw [Nat.and_two_pow_sub_one_eq_mod, ← pow_succ']
      exact Nat.mod_lt _ (by positivity)
    exact (fieldSubToMontgomery_spec (by rw [Q]; omega) (by rw [Q]; omega) (by rw [Q]; omega)).1
  intro i hi
  refine PolyIn.forall_coeff (P := (· < Q)) (fun c hc => ?_) hi
  obtain ⟨hbits, -⟩ | ⟨hbits, -⟩ := params.gamma1_eq
  · rw [hbits] at hc
    obtain ⟨w, -, rfl⟩ := List.mem_map.mp hc
    exact hfield 17 (by decide) w
  · rw [hbits] at hc
    obtain ⟨w, -, rfl⟩ := List.mem_map.mp hc
    exact hfield 19 (by decide) w

theorem bitunpack_of_bitpack {z : Poly} (hz : z.Reduced)
    (hnorm : ∀ i < N, fieldInfinityNorm (z.coeff i) < params.gamma1) {octet : Nat → UInt8}
    (hoctet : ∀ k < params.polyzBytes, octet k = (bitpack z params.gamma1Bits).getD k 0) :
    bitunpack octet params.gamma1Bits = z := by
  have hcentered := fun i hi => (centered_of_norm (hz i hi) (hnorm i hi)).2
  have hsize : ∀ i < N, z.coeff i < 2 ^ 32 := fun i hi => (hz i hi).trans (by decide)
  refine Eq.trans (PolyIn.ext_coeffs ?_) (PolyIn.map_mod_eq hz)
  obtain ⟨hbits, hgamma, hbytes⟩ | ⟨hbits, hgamma, hbytes⟩ := params.gamma1_eq
  · rw [hbits, hbytes] at hoctet
    rw [hgamma] at hcentered
    rw [hbits]
    exact unpack_pack_zField (P := packing18) (by decide) (by decide) hsize
      (fun i hi => by have := hcentered i hi; omega)
      (fun i hi => by have := hcentered i hi; omega) hoctet
  · rw [hbits, hbytes] at hoctet
    rw [hgamma] at hcentered
    rw [hbits]
    exact unpack_pack_zField (P := packing20) (by decide) (by decide) hsize
      (fun i hi => by have := hcentered i hi; omega)
      (fun i hi => by have := hcentered i hi; omega) hoctet

theorem hintDecode_of_hintEncode {h : List (List Nat)} (hlength : h.length = K)
    (hbinary : ∀ row ∈ h, Binary row) (hweight : weight h ≤ params.omega) {octet : Nat → UInt8}
    (hoctet : ∀ k < params.omega + K, octet k = (hintEncode params h).getD k 0) :
    hintDecode params octet = .ok h := by
  obtain ⟨hencode, hcodes, hzero⟩ := hintEncode_canonical params hlength hbinary hweight
  have hsame : ∀ k < params.omega + K, canonical params.omega h k = octet k := by
    intro k hk
    rw [hoctet k hk, hencode, getD_map_range _ hk]
  refine (hintDecode_eq_ok params).mpr ⟨hlength, hcodes.congr fun k hk => hsame k (by omega), ?_⟩
  intro k hk hlt
  rw [← hsame k (by omega), hzero k hk hlt]

theorem length_hintEncode {h : List (List Nat)} (hlength : h.length = K)
    (hbinary : ∀ row ∈ h, Binary row) (hweight : weight h ≤ params.omega) :
    (hintEncode params h).length = params.omega + K := by
  rw [(hintEncode_canonical params hlength hbinary hweight).1, List.length_map, List.length_range]

theorem sigDecode_sigEncode {ct : Bytes} (hct : ct.length = params.lambdaOver4) {z : Nat → Poly}
    (hz : ∀ l < L, (z l).Reduced)
    (hnorm : ∀ l < L, ∀ i < N, fieldInfinityNorm ((z l).coeff i) < params.gamma1)
    {h : List (List Nat)} (hlength : h.length = K) (hbinary : ∀ row ∈ h, Binary row)
    (hweight : weight h ≤ params.omega) :
    ∃ z', sigDecode params (sigEncode params ct z h) = .ok (ct, z', h) ∧ ∀ l < L, z' l = z l := by
  have hchunk : ∀ l, l < L → (bitpack (z l) params.gamma1Bits).length = params.polyzBytes :=
    fun l _ => length_bitpack params (z l)
  have hhints := length_hintEncode params hlength hbinary hweight
  have hresponse := length_ofChunks hchunk
  have hsize : (sigEncode params ct z h).length = params.signatureSize := by
    rw [sigEncode, List.length_append, List.length_append, hct, hresponse, hhints,
      params.signatureSize_eq, Nat.mul_comm L]
  have hcells : ∀ l < L, ∀ k < params.polyzBytes,
      (sigEncode params ct z h).getD (params.lambdaOver4 + params.polyzBytes * l + k) 0 =
        (bitpack (z l) params.gamma1Bits).getD k 0 := by
    intro l hl k hk
    have hin : params.polyzBytes * l + k < params.polyzBytes * L := by
      calc params.polyzBytes * l + k < params.polyzBytes * (l + 1) := by rw [Nat.mul_succ]; omega
        _ ≤ params.polyzBytes * L := Nat.mul_le_mul_left _ hl
    rw [sigEncode, List.append_assoc, List.getD_append_right _ _ _ _ (by omega), hct, Nat.add_assoc,
      Nat.add_sub_cancel_left, List.getD_append _ _ _ _ (by rw [hresponse]; exact hin),
      getD_ofChunks hchunk hl hk]
  have hcodes : ∀ k < params.omega + K,
      (sigEncode params ct z h).getD (params.lambdaOver4 + params.polyzBytes * L + k) 0 =
        (hintEncode params h).getD k 0 := by
    intro k _
    have hfront : (ct ++ ofChunks L fun i => bitpack (z i) params.gamma1Bits).length =
        params.lambdaOver4 + params.polyzBytes * L := by
      rw [List.length_append, hct, hresponse]
    rw [sigEncode, List.getD_append_right _ _ _ _ (by omega), hfront, Nat.add_sub_cancel_left]
  have htake : (sigEncode params ct z h).take params.lambdaOver4 = ct := by
    rw [sigEncode, List.append_assoc, ← hct, List.take_left]
  refine ⟨_, ?_, fun l hl => bitunpack_of_bitpack params (hz l hl) (hnorm l hl) (hcells l hl)⟩
  rw [sigDecode, if_neg (not_not.mpr hsize)]
  simp only [hintDecode_of_hintEncode params hlength hbinary hweight hcodes, htake]
  rfl

theorem w1Encode_congr {w w' : Nat → Nat → Nat} (h : ∀ r < K, ∀ i < N, w r i = w' r i) :
    w1Encode params w = w1Encode params w' := by
  unfold w1Encode
  have hN : N = 2 * (N / 2) ∧ N = 4 * (N / 4) := by decide
  split
  · refine ofChunks_congr fun r hr => ofChunks_congr fun i hi => ?_
    simp only [h r hr (2 * i + 0) (by omega), h r hr (2 * i + 1) (by omega)]
  · refine ofChunks_congr fun r hr => ofChunks_congr fun i hi => ?_
    simp only [h r hr (4 * i + 0) (by omega), h r hr (4 * i + 1) (by omega),
      h r hr (4 * i + 2) (by omega), h r hr (4 * i + 3) (by omega)]
  · rfl

end SignatureCodec

/-! ## Checks and hints of the signer -/

theorem anyOf_eq_false {count : Nat} {check : Nat → Bool} :
    anyOf count check = false ↔ ∀ i < count, check i = false := by
  unfold anyOf
  induction count with
  | zero => simp
  | succ count ih =>
    rw [forRange_snoc, Nat.zero_add, Bool.or_eq_false_iff, ih, Nat.forall_lt_succ_right]

theorem coefficientsExceedBound_eq_false {w : Poly} {bound : Nat}
    (h : coefficientsExceedBound w bound = false) {i : Nat} (hi : i < N) :
    fieldInfinityNorm (w.coeff i) < bound := by
  rw [coefficientsExceedBound, List.any_eq_false] at h
  exact PolyIn.forall_coeff (P := fun c => fieldInfinityNorm c < bound)
    (fun c hc => by simpa using h c hc) hi

theorem lowbitsExceedBound_eq_false {w : Poly} {bound den : Nat}
    (h : lowbitsExceedBound w bound den = false) {i : Nat} (hi : i < N) :
    (decompose (w.coeff i) den).2.natAbs < bound := by
  rw [lowbitsExceedBound, List.any_eq_false] at h
  exact PolyIn.forall_coeff (P := fun c => (decompose c den).2.natAbs < bound)
    (fun c hc => by simpa using h c hc) hi

theorem sum_eq_count {row : List Nat} (h : ∀ x ∈ row, x = 0 ∨ x = 1) : row.sum = row.count 1 := by
  induction row with
  | nil => rfl
  | cons x row ih =>
    rw [List.sum_cons, ih fun y hy => h y (List.mem_cons_of_mem x hy), List.count_cons]
    rcases h x List.mem_cons_self with rfl | rfl
    · simp
    · simp [Nat.add_comm]

theorem makeHintPoly_binary (params : MlDsaParams K L) (ct0 w cs2 : Poly) :
    Binary (makeHintPoly ct0 w cs2 params).1 := by
  refine ⟨by rw [makeHintPoly, List.length_map, List.length_range], fun x hx => ?_⟩
  obtain ⟨i, -, rfl⟩ := List.mem_map.mp hx
  rw [makeHint_eq (Rounds.of_params params)]
  split
  · exact .inr rfl
  · exact .inl rfl

theorem weight_makeHintPoly (params : MlDsaParams K L) (ct0 w cs2 : Nat → Poly) (n : Nat) :
    weight (((List.range n).map fun i => makeHintPoly (ct0 i) (w i) (cs2 i) params).map Prod.fst) =
      (((List.range n).map fun i => makeHintPoly (ct0 i) (w i) (cs2 i) params).map
        Prod.snd).sum := by
  rw [weight, List.map_map, List.map_map, List.map_map]
  refine congrArg List.sum (List.map_congr_left fun i _ => ?_)
  have hcount := sum_eq_count (makeHintPoly_binary params (ct0 i) (w i) (cs2 i)).2
  simp only [Function.comp_apply]
  rw [← hcount, makeHintPoly]

/-! ## Signing and verifying -/

/-- The hints of an accepted attempt lead from the verifier's row to the signer's high parts. -/
theorem useHintPoly_eq (params : MlDsaParams K L) {approx w cs2 ct0 : Poly}
    (happrox : approx.Reduced) (hw : w.Reduced) (hcs2 : cs2.Reduced) (hct0 : ct0.Reduced)
    (hvalue : ∀ i < N, approx.values i = w.values i - cs2.values i + ct0.values i)
    (hsmall : ∀ i < N, ∃ e : Int, e.natAbs ≤ params.beta ∧ cs2.values i = e)
    (hlow : lowbitsExceedBound (polySub w cs2) (params.gamma2 - params.beta)
      params.gamma2Den = false)
    (hbound : coefficientsExceedBound ct0 params.gamma2 = false) {i : Nat} (hi : i < N) :
    useHintPoly approx (makeHintPoly ct0 w cs2 params).1 params i = highbitsPoly w params i := by
  have hrounds := Rounds.of_params params
  have hhint : (makeHintPoly ct0 w cs2 params).1.getD i 0 =
      makeHint (ct0.coeff i) (w.coeff i) (cs2.coeff i) params.gamma2Den := by
    rw [makeHintPoly, getD_map_range _ hi]
  have hsub : (polySub w cs2).coeff i = fieldSub (w.coeff i) (cs2.coeff i) :=
    PolyIn.coeff_zipWith _ _ _ hi
  obtain ⟨hreduced, hdifference⟩ := fieldSub_spec (hw i hi) (hcs2 i hi)
  obtain ⟨hx, hxCast⟩ := fieldFromMontgomery_spec hreduced
  obtain ⟨hy, hyCast⟩ := fieldFromMontgomery_spec (hw i hi)
  rw [useHintPoly, hhint, useHint_makeHint hrounds (hct0 i hi) (hw i hi) (hcs2 i hi) (happrox i hi)
    (coefficientsExceedBound_eq_false hbound hi) (hvalue i hi), highbitsPoly]
  obtain ⟨e, he, hcs2Value⟩ := hsmall i hi
  have hrest := lowbitsExceedBound_eq_false hlow hi
  rw [hsub, decompose_eq hrounds hreduced] at hrest
  refine (highbits_shift hrounds hx hy (b := params.beta) (e := e) ?_ he ?_).symm
  · have hbeta := params.beta_lt
    exact Nat.add_lt_of_lt_sub hrest
  · rw [hyCast, hxCast, hdifference, ← hcs2Value, PolyIn.values]
    ring

/-- What a turn of the signing loop that returns `sig` has computed and checked. -/
structure Accepted (H : Shake) (fuel : Nat) (params : MlDsaParams K L) (key : MlDsaKeyMaterial)
    (mu sig ct : Bytes) (c : Poly) (y w z cs2 ct0 : Nat → Poly) : Prop where
  y_reduced : ∀ l, (y l).Reduced
  w_eq : w = fun i => invntt (accumulate L (.zero _) (key.a i) fun j => ntt (y j))
  ct_eq : ct = squeeze (H.shake256 (mu ++ w1Encode params fun i => highbitsPoly (w i) params)) 0
    params.lambdaOver4
  challenge : sampleInBall H fuel ct params.tau = some c
  z_eq : z = fun i => polyAdd (y i) (invntt (nttMul (ntt c) (key.s1Hat i)))
  cs2_eq : cs2 = fun i => invntt (nttMul (ntt c) (key.s2Hat i))
  ct0_eq : ct0 = fun i => invntt (nttMul (ntt c) (key.t0Hat i))
  z_bound : ∀ i < L, coefficientsExceedBound (z i) (params.gamma1 - params.beta) = false
  low_bound : ∀ i < K, lowbitsExceedBound (polySub (w i) (cs2 i)) (params.gamma2 - params.beta)
    params.gamma2Den = false
  ct0_bound : ∀ i < K, coefficientsExceedBound (ct0 i) params.gamma2 = false
  weight_le : (((List.range K).map fun i =>
    makeHintPoly (ct0 i) (w i) (cs2 i) params).map Prod.snd).sum ≤ params.omega
  sig_eq : sig = sigEncode params ct z
    (((List.range K).map fun i => makeHintPoly (ct0 i) (w i) (cs2 i) params).map Prod.fst)

theorem accepted_of_signAttempt {params : MlDsaParams K L} {fuel : Nat} {key : MlDsaKeyMaterial}
    {mu nonce sig : Bytes} {kappa : Nat}
    (h : signAttempt H fuel params key mu nonce kappa = some (some sig)) :
    ∃ ct c y w z cs2 ct0, Accepted H fuel params key mu sig ct c y w z cs2 ct0 := by
  simp only [signAttempt, Option.bind_eq_bind, Option.bind_eq_some_iff] at h
  obtain ⟨c, hc, h⟩ := h
  split at h
  · cases h
  next hz =>
  split at h
  · cases h
  next hlow =>
  split at h
  · cases h
  next hct0 =>
  split at h
  · cases h
  next hweight =>
  rw [Bool.not_eq_true, anyOf_eq_false] at hz hlow hct0
  exact ⟨_, c, fun i => expandMask H nonce (kappa + i) params, _, _, _, _, {
    y_reduced := fun l => bitunpack_reduced params _
    w_eq := rfl
    ct_eq := rfl
    challenge := hc
    z_eq := rfl
    cs2_eq := rfl
    ct0_eq := rfl
    z_bound := hz
    low_bound := hlow
    ct0_bound := hct0
    weight_le := not_lt.mp hweight
    sig_eq := (Option.some.inj (Option.some.inj h)).symm }⟩

theorem signAttempt_of_accepted {params : MlDsaParams K L} {fuel : Nat} {key : MlDsaKeyMaterial}
    {mu nonce sig ct : Bytes} {kappa : Nat} {c : Poly} {y w z cs2 ct0 : Nat → Poly}
    (ha : Accepted H fuel params key mu sig ct c y w z cs2 ct0)
    (hy : y = fun i => expandMask H nonce (kappa + i) params) :
    signAttempt H fuel params key mu nonce kappa = some (some sig) := by
  have hz := anyOf_eq_false.mpr ha.z_bound
  have hlow := anyOf_eq_false.mpr ha.low_bound
  have hct0 := anyOf_eq_false.mpr ha.ct0_bound
  have hweight := not_lt.mpr ha.weight_le
  have hc := ha.challenge
  have hsig := ha.sig_eq
  rw [ha.z_eq] at hz hsig
  rw [ha.ct_eq] at hc hsig
  rw [ha.ct0_eq] at hct0 hweight hsig
  rw [ha.cs2_eq] at hlow hweight hsig
  rw [ha.w_eq] at hc hlow hweight hsig
  subst hy
  simp only [signAttempt, hc, Option.bind_eq_bind, Option.bind_some]
  rw [hz, hlow, hct0, if_neg Bool.false_ne_true, if_neg Bool.false_ne_true,
    if_neg Bool.false_ne_true, if_neg hweight, hsig]

section Attempt

variable {params : MlDsaParams K L} {fuel₁ fuel₂ fuel : Nat} {key : MlDsaKeyMaterial}
  {rho : Bytes} {s1 s2 t0 : Nat → Poly} {t1 : Nat → Nat → Nat} {mu sig ct : Bytes} {c : Poly}
  {y w z cs2 ct0 : Nat → Poly}

theorem Generated.a_isNtt (hkey : Generated H fuel₁ params key rho s1 s2 t0 t1) {i l : Nat}
    (hi : i < K) (hl : l < L) : (key.a i l).IsNtt (ringOf (key.a i l)) := by
  obtain ⟨matrix, hmatrix, ha⟩ := hkey.matrix
  refine isNtt_ringOf ?_
  rw [ha]
  exact computeMatrixA_reduced hmatrix hi hl

theorem product_spec (hc : c.Reduced) {s : Poly} (hs : s.Reduced) :
    (invntt (nttMul (ntt c) (ntt s))).Reduced ∧
      ∀ i, i < N → (invntt (nttMul (ntt c) (ntt s))).values i =
        negacyclic N c.values s.values i :=
  invntt_spec (nttMul_isNtt (ntt_isNtt hc) (ntt_isNtt hs))

theorem Accepted.z_spec (hkey : Generated H fuel₁ params key rho s1 s2 t0 t1)
    (ha : Accepted H fuel₂ params key mu sig ct c y w z cs2 ct0) (hc : c.Reduced) {l : Nat}
    (hl : l < L) : (z l).Reduced ∧
      ∀ i < N, (z l).values i = (y l).values i + negacyclic N c.values (s1 l).values i := by
  obtain ⟨hreduced, hvalues⟩ := product_spec hc (Small.reduced (hkey.s1_small l hl))
  obtain ⟨hsum, hsumValues⟩ := polyAdd_spec (ha.y_reduced l) hreduced
  rw [ha.z_eq, hkey.s1Hat]
  refine ⟨hsum, fun i hi => ?_⟩
  rw [hsumValues i hi, hvalues i hi]

theorem Accepted.w_spec (hkey : Generated H fuel₁ params key rho s1 s2 t0 t1)
    (ha : Accepted H fuel₂ params key mu sig ct c y w z cs2 ct0) {i : Nat} (hi : i < K) :
    (w i).Reduced ∧ ∀ j < N, (w i).values j =
      ∑ l ∈ range L, negacyclic N (ringOf (key.a i l)) (y l).values j := by
  have hntt := accumulate_isNtt (x := fun _ => 0) zero_isNtt (fun l hl => hkey.a_isNtt hi hl)
    fun l (_ : l < L) => ntt_isNtt (ha.y_reduced l)
  obtain ⟨hreduced, hvalues⟩ := invntt_spec hntt
  rw [ha.w_eq]
  refine ⟨hreduced, fun j hj => ?_⟩
  rw [hvalues j hj, zero_add]

theorem approx_spec (hkey : Generated H fuel₁ params key rho s1 s2 t0 t1)
    (ha : Accepted H fuel₂ params key mu sig ct c y w z cs2 ct0) (hc : c.Reduced)
    {z' : Nat → Poly} (hz' : ∀ l < L, z' l = z l) {t1' : Nat → Nat → Nat}
    (ht1' : ∀ r < K, ∀ i < N, t1' r i = t1 r i) {i : Nat} (hi : i < K) :
    (invntt (nttSub (accumulate L (.zero _) (key.a i) fun l => ntt (z' l))
        (nttMul (ntt c) (computeT1Hat t1' i)))).Reduced ∧
      ∀ j < N, (invntt (nttSub (accumulate L (.zero _) (key.a i) fun l => ntt (z' l))
          (nttMul (ntt c) (computeT1Hat t1' i)))).values j =
        (w i).values j - (cs2 i).values j + (ct0 i).values j := by
  have hshift : ∀ j < N, (shiftedT1 t1' i).coeff j = fieldToMontgomery (t1 i j <<< D) := by
    intro j hj
    rw [PolyIn.coeff, shiftedT1, getD_map_range _ hj, ht1' i hi j hj]
  have ht1 := fun j hj => fieldToMontgomery_spec (hkey.t1_lt i hi j hj).2
  have ht1Reduced : (shiftedT1 t1' i).Reduced := fun j hj => by
    rw [hshift j hj]
    exact (ht1 j hj).1
  have ht1Values : ∀ j < N, (shiftedT1 t1' i).values j = ((t1 i j <<< D : Nat) : F) := by
    intro j hj
    rw [PolyIn.values, hshift j hj]
    exact (ht1 j hj).2
  have hz : ∀ l < L, (ntt (z' l)).IsNtt (z l).values := by
    intro l hl
    rw [hz' l hl]
    exact ntt_isNtt (ha.z_spec hkey hc hl).1
  have hntt := nttSub_isNtt (accumulate_isNtt (x := fun _ => 0) zero_isNtt
    (fun l hl => hkey.a_isNtt hi hl) hz) (nttMul_isNtt (ntt_isNtt hc) (ntt_isNtt ht1Reduced))
  obtain ⟨hreduced, hvalues⟩ := invntt_spec hntt
  refine ⟨hreduced, fun j hj => ?_⟩
  have hcs2 := (product_spec hc (Small.reduced (hkey.s2_small i hi))).2 j hj
  have hct0 := (product_spec hc (hkey.t0_reduced i hi)).2 j hj
  have hpublic : ∀ j < N, (shiftedT1 t1' i).values j + (t0 i).values j =
      (s2 i).values j + ∑ l ∈ range L, negacyclic N (ringOf (key.a i l)) (s1 l).values j := by
    intro j hj
    rw [ht1Values j hj]
    exact hkey.sum i hi j hj
  have hrow := approx_eq (a := fun l => ringOf (key.a i l)) (y := fun l => (y l).values)
    (z := fun l => (z l).values) (c := c.values) (fun l hl => (ha.z_spec hkey hc hl).2) hpublic hj
  refine (hvalues j hj).trans ?_
  rw [zero_add, hrow, (ha.w_spec hkey hi).2 j hj, ha.cs2_eq, ha.ct0_eq, hkey.s2Hat, hkey.t0Hat,
    hcs2, hct0]

theorem verifyInternal_of_accepted (hkey : Generated H fuel₁ params key rho s1 s2 t0 t1)
    (ha : Accepted H fuel₂ params key mu sig ct c y w z cs2 ct0) (hle₁ : fuel₁ ≤ fuel)
    (hle₂ : fuel₂ ≤ fuel) : verifyInternal H fuel params key.pk mu sig = some (.ok ()) := by
  have hsparse := sampleInBall_sparse params.tau_le ha.challenge
  have hc := hsparse.reduced
  -- the key
  have hpkLength : (pkEncode K rho t1).length = params.publicKeySize := by
    rw [length_pkEncode, hkey.rho_length, params.publicKeySize_eq, Nat.mul_comm]
  have hpk : pkDecode params key.pk = .ok (rho, pkRow key.pk) := by
    rw [hkey.pk, pkDecode_eq params hpkLength, pkEncode, ← hkey.rho_length, List.take_left]
  have ht1' : ∀ r < K, ∀ i < N, pkRow key.pk r i = t1 r i := by
    intro r hr i hi
    rw [hkey.pk]
    exact pkRow_pkEncode hkey.rho_length (fun r hr i hi => (hkey.t1_lt r hr i hi).1) hr hi
  obtain ⟨matrix, hmatrix, hA⟩ := hkey.matrix
  -- the signature
  have hnorm : ∀ l < L, ∀ i < N, fieldInfinityNorm ((z l).coeff i) < params.gamma1 :=
    fun l hl i hi => (coefficientsExceedBound_eq_false (ha.z_bound l hl) hi).trans_le
      (Nat.sub_le _ _)
  have hbinary : ∀ row ∈ ((List.range K).map fun i =>
      makeHintPoly (ct0 i) (w i) (cs2 i) params).map Prod.fst, Binary row := by
    intro row hrow
    obtain ⟨hint, hhint, rfl⟩ := List.mem_map.mp hrow
    obtain ⟨i, -, rfl⟩ := List.mem_map.mp hhint
    exact makeHintPoly_binary params _ _ _
  obtain ⟨z', hsig, hz'⟩ := sigDecode_sigEncode params (z := z)
    (show ct.length = _ by rw [ha.ct_eq, length_squeeze]) (fun l hl => (ha.z_spec hkey hc hl).1)
    hnorm (by simp) hbinary
    (by rw [weight_makeHintPoly]; exact ha.weight_le)
  have hchecked : ((List.range L).any fun i =>
      coefficientsExceedBound (z' i) (params.gamma1 - params.beta)) = false := by
    rw [List.any_eq_false]
    intro l hl
    rw [hz' l (List.mem_range.mp hl), ha.z_bound l (List.mem_range.mp hl)]
    exact Bool.false_ne_true
  -- the challenge
  have hw1 : ∀ i < K, ∀ j < N, useHintPoly
      (invntt (nttSub (accumulate L (.zero _) (key.a i) fun l => ntt (z' l))
        (nttMul (ntt c) (computeT1Hat (pkRow key.pk) i))))
      ((((List.range K).map fun i =>
        makeHintPoly (ct0 i) (w i) (cs2 i) params).map Prod.fst).getD i []) params j =
      highbitsPoly (w i) params j := by
    intro i hi j hj
    obtain ⟨happrox, hvalues⟩ := approx_spec hkey ha hc hz' ht1' hi
    obtain ⟨hcs2, hcs2Values⟩ := product_spec hc (Small.reduced (hkey.s2_small i hi))
    have hct0 := (product_spec hc (hkey.t0_reduced i hi)).1
    rw [List.map_map, getD_map_range _ hi]
    refine useHintPoly_eq params happrox (ha.w_spec hkey hi).1 ?_ ?_ hvalues (fun j hj => ?_)
      (ha.low_bound i hi) (ha.ct0_bound i hi) hj
    · rw [ha.cs2_eq, hkey.s2Hat]
      exact hcs2
    · rw [ha.ct0_eq, hkey.t0Hat]
      exact hct0
    · rw [ha.cs2_eq, hkey.s2Hat, params.beta_eq]
      obtain ⟨e, he, hvalue⟩ := negacyclic_small hsparse (hkey.s2_small i hi) hj
      exact ⟨e, he, (hcs2Values j hj).trans hvalue⟩
  rw [verifyInternal, hpk]
  simp only
  rw [ha.sig_eq, hsig]
  simp only [hchecked, Bool.false_eq_true, if_false, computeMatrixA_of_le hmatrix hle₁,
    sampleInBall_of_le ha.challenge hle₂, Option.bind_eq_bind, Option.bind_some]
  simp only [hA] at hw1
  rw [w1Encode_congr params hw1, ← ha.ct_eq, if_neg (not_not.mpr rfl)]

theorem verifyMessage_of_accepted {message ctx : Bytes}
    (hkey : Generated H fuel₁ params key rho s1 s2 t0 t1)
    (hmu : computeMessageHash H key.tr message ctx = .ok mu)
    (ha : Accepted H fuel₂ params key mu sig ct c y w z cs2 ct0) (hle₁ : fuel₁ ≤ fuel)
    (hle₂ : fuel₂ ≤ fuel) : verifyMessage H fuel params key.pk message sig ctx = some (.ok ()) := by
  rw [verifyMessage, ← hkey.tr, hmu]
  exact verifyInternal_of_accepted hkey ha hle₁ hle₂

end Attempt

theorem signAttempt_of_signLoop {params : MlDsaParams K L} {fuel iterations kappa : Nat}
    {key : MlDsaKeyMaterial} {mu nonce sig : Bytes}
    (h : signLoop H fuel params key mu nonce iterations kappa = some (.ok sig)) :
    ∃ kappa, signAttempt H fuel params key mu nonce kappa = some (some sig) := by
  induction iterations generalizing kappa with
  | zero => cases h
  | succ iterations ih =>
    simp only [signLoop, Option.bind_eq_bind, Option.bind_eq_some_iff] at h
    obtain ⟨outcome, houtcome, h⟩ := h
    cases outcome with
    | some sig' =>
      cases h
      exact ⟨kappa, houtcome⟩
    | none => exact ih h

theorem accepted_of_signDerandInto {params : MlDsaParams K L} {fuel : Nat} {key : MlDsaKeyMaterial}
    {message ctx rnd sig : Bytes}
    (h : signDerandInto H fuel params key message ctx rnd = some (.ok sig)) :
    ∃ mu, computeMessageHash H key.tr message ctx = .ok mu ∧
      ∃ ct c y w z cs2 ct0, Accepted H fuel params key mu sig ct c y w z cs2 ct0 := by
  rw [signDerandInto] at h
  split at h
  · cases h
  next mu hmu =>
    obtain ⟨kappa, hattempt⟩ := signAttempt_of_signLoop h
    exact ⟨mu, hmu, accepted_of_signAttempt hattempt⟩

/-- The verifier accepts every signature the signer returns, with the fuel both calls needed. -/
theorem verifyMessage_of_signDerandInto (params : MlDsaParams K L) {fuel₁ fuel₂ fuel : Nat}
    {seed message ctx rnd sig : Bytes} {key : MlDsaKeyMaterial}
    (hkey : fromSeed H fuel₁ params seed = some key)
    (hsign : signDerandInto H fuel₂ params key message ctx rnd = some (.ok sig))
    (hle₁ : fuel₁ ≤ fuel) (hle₂ : fuel₂ ≤ fuel) :
    verifyMessage H fuel params key.pk message sig ctx = some (.ok ()) := by
  obtain ⟨rho, s1, s2, t0, t1, hgenerated⟩ := generated_of_fromSeed hkey
  obtain ⟨mu, hmu, ct, c, y, w, z, cs2, ct0, ha⟩ := accepted_of_signDerandInto hsign
  exact verifyMessage_of_accepted hgenerated hmu ha hle₁ hle₂

/-- The signatures that `sign_derand_into` returns under keys from a seed are accepted. -/
def SignaturesVerify (params : MlDsaParams K L) : Prop :=
  ∀ (H : Shake) (seed message ctx rnd sig : Bytes) (key : MlDsaKeyMaterial) (fuel₁ fuel₂ : Nat),
    fromSeed H fuel₁ params seed = some key →
    signDerandInto H fuel₂ params key message ctx rnd = some (.ok sig) →
    ∀ fuel, fuel₁ ≤ fuel → fuel₂ ≤ fuel →
      verifyMessage H fuel params key.pk message sig ctx = some (.ok ())

theorem parameterSets_verify :
    SignaturesVerify PARAMS_44 ∧ SignaturesVerify PARAMS_65 ∧ SignaturesVerify PARAMS_87 := by
  have hverify {K L : Nat} (params : MlDsaParams K L) : SignaturesVerify params := by
    intro H seed message ctx rnd sig key fuel₁ fuel₂ hkey hsign fuel hle₁ hle₂
    obtain ⟨rho, s1, s2, t0, t1, hgenerated⟩ := generated_of_fromSeed hkey
    obtain ⟨mu, hmu, ct, c, y, w, z, cs2, ct0, ha⟩ := accepted_of_signDerandInto hsign
    exact verifyMessage_of_accepted hgenerated hmu ha hle₁ hle₂
  exact ⟨hverify _, hverify _, hverify _⟩

/-! ## A run -/

def quietShake : Shake where
  shake128 := fun _ _ => 0
  shake256 := fun input =>
    match input.head? with
    | some 1 => fun _ => 2
    | some 2 => fun _ => 0x22
    | some 0x22 => fun k => [0, 0, 0xfe, 0xff, 0x07, 0, 0x20, 0, 0x80].getD (k % 9) 0
    | _ => fun _ => 0

theorem eq_zero_of_values {d : Domain} {p : PolyIn d} (hp : p.Reduced)
    (hvalues : ∀ i < N, p.values i = 0) :
    p = .zero d := by
  refine PolyIn.ext_coeffs (ext_getD (p.length_eq.trans (PolyIn.zero d).length_eq.symm) 0 ?_)
  intro i hi
  rw [p.length_eq] at hi
  exact PolyIn.ext_values hp PolyIn.zero_reduced
    (fun i hi => (hvalues i hi).trans (PolyIn.zero_values hi).symm) hi

theorem ntt_zero : ntt (.zero _) = .zero _ := by
  obtain ⟨hreduced, hvalues⟩ := (ntt_isNtt PolyIn.zero_reduced).congr (y := fun _ => 0)
    fun i hi => PolyIn.zero_values hi
  refine eq_zero_of_values hreduced fun i hi => ?_
  rw [hvalues i hi, ← zero_isNtt.2 i hi, PolyIn.zero_values hi]

theorem invntt_zero : invntt (.zero _) = .zero _ :=
  eq_zero_of_values (invntt_spec zero_isNtt).1 (invntt_spec zero_isNtt).2

theorem invntt_nttMul_zero {c : Poly} (hc : c.Reduced) :
    invntt (nttMul (ntt c) (.zero _)) = .zero _ := by
  obtain ⟨hreduced, hvalues⟩ := invntt_spec (nttMul_isNtt (ntt_isNtt hc) zero_isNtt)
  refine eq_zero_of_values hreduced fun i hi => ?_
  rw [hvalues i hi, negacyclic]
  simp

theorem polyAdd_zero {p : Poly} (hp : p.Reduced) : polyAdd p (.zero _) = p := by
  obtain ⟨hreduced, hvalues⟩ := polyAdd_spec hp PolyIn.zero_reduced
  refine PolyIn.ext_coeffs (ext_getD ((polyAdd p _).length_eq.trans p.length_eq.symm) 0 ?_)
  intro i hi
  rw [(polyAdd p _).length_eq] at hi
  refine PolyIn.ext_values hreduced hp (fun i hi => ?_) hi
  rw [hvalues i hi, PolyIn.zero_values hi, add_zero]

theorem accumulate_zero (n : Nat) {v : Nat → NttPoly} {y : Nat → Nat → F}
    (hv : ∀ j, j < n → (v j).IsNtt (y j)) :
    accumulate n (.zero _) (fun _ => .zero _) v = .zero .ntt := by
  obtain ⟨hreduced, hvalues⟩ := (accumulate_isNtt (x := fun _ => 0) zero_isNtt
    (fun _ _ => zero_isNtt) hv).congr (y := fun _ => 0) fun i hi => by simp [negacyclic]
  refine eq_zero_of_values hreduced fun i hi => ?_
  rw [hvalues i hi, ← zero_isNtt.2 i hi, PolyIn.zero_values hi]

theorem quiet_samples :
    sampled .ntt (whileLoop (fun st => decide (st.coeffs.length < N))
      (sampleNttStep fun _ => 0) 256 ⟨[], 0⟩) = some (.zero _) ∧
    sampled .ring (whileLoop (fun st => decide (st.coeffs.length < N))
      (sampleBoundedStep (fun _ => 0x22) 2) 256 ⟨[], 0⟩) = some (.zero _) ∧
    (PolyIn.zero .ring).map (fun c => (power2round c).2) = PolyIn.zero .ring ∧
    (sampleInBall quietShake 256 (List.replicate 32 0) 39).isSome := by
  refine ⟨?_, ?_, ?_, ?_⟩ <;> decide +kernel

theorem quiet_matrix (rho : Bytes) : computeMatrixA quietShake 256 4 4 rho =
    some ((List.range 4).map fun _ => (List.range 4).map fun _ => .zero _) := by
  obtain ⟨hentry, -⟩ := quiet_samples
  exact forCollect_of_forall fun _ _ => forCollect_of_forall fun _ _ => hentry

theorem quiet_secret (rest : Bytes) (r : UInt8) :
    sampleBoundedPoly quietShake 256 (2 :: rest) r 2 = some (.zero _) := by
  obtain ⟨-, hentry, -⟩ := quiet_samples
  exact hentry

/-- A mask with a coefficient 1 in every group of four. -/
def quietMask : Poly :=
  bitunpack18 fun k => ([0, 0, 0xfe, 0xff, 0x07, 0, 0x20, 0, 0x80] : Bytes).getD (k % 9) 0

theorem quiet_mask (rest : Bytes) (kappa : Nat) :
    expandMask quietShake (0x22 :: rest) kappa PARAMS_44 = quietMask := rfl

theorem quietMask_reduced : quietMask.Reduced := bitunpack_reduced PARAMS_44 _

theorem getD_const {α : Type*} (x : α) (n r : Nat) :
    ((List.range n).map fun _ => x).getD r x = x := by
  rw [List.map_const', List.getD_eq_getElem?_getD, List.getElem?_replicate]
  split <;> rfl

theorem quiet_key : ∃ key, fromSeed quietShake 256 PARAMS_44 (1 :: List.replicate 31 0) = some key ∧
    key.a = (fun _ _ => .zero _) ∧ key.s1Hat = (fun _ => .zero _) ∧ key.s2Hat = (fun _ => .zero _) ∧
    key.t0Hat = (fun _ => .zero _) ∧ key.keyBytes = List.replicate 32 2 ∧
    ∃ rest, key.tr = 0x22 :: rest := by
  have hsecret (count offset : Nat) : (forCollect count fun r =>
      sampleBoundedPoly quietShake 256 (List.replicate 64 2) (UInt8.ofNat (offset + r)) 2) =
        some ((List.range count).map fun _ => .zero _) :=
    forCollect_of_forall fun _ _ => quiet_secret _ _
  have hsecret1 := hsecret 4 0
  simp only [Nat.zero_add] at hsecret1
  have hsqueeze (start len : Nat) :
      squeeze (quietShake.shake256 (1 :: List.replicate 31 0 ++ [UInt8.ofNat 4, UInt8.ofNat 4]))
        start len = List.replicate len 2 := by
    rw [List.eq_replicate_iff, length_squeeze]
    refine ⟨rfl, fun octet h => ?_⟩
    obtain ⟨k, -, rfl⟩ := List.mem_map.mp h
    rfl
  obtain ⟨-, -, hround, -⟩ := quiet_samples
  have ha (i j : Nat) : (((List.range 4).map fun _ => (List.range 4).map fun _ =>
      PolyIn.zero .ntt).getD i []).getD j (.zero _) = .zero _ := by
    rcases Nat.lt_or_ge i 4 with h | h
    · rw [getD_map_range _ h, getD_const]
    · have hrow : ((List.range 4).map fun _ => (List.range 4).map fun _ =>
          PolyIn.zero .ntt).getD i [] = [] := List.getD_eq_default _ _ h
      rw [hrow]
      rfl
  simp only [fromSeed, hsqueeze, quiet_matrix, show PARAMS_44.eta = 2 from rfl, hsecret1, hsecret,
    Option.bind_eq_bind, Option.bind_some, getD_const, ha, ntt_zero,
    accumulate_zero _ fun _ _ => zero_isNtt, invntt_zero, hround]
  exact ⟨_, rfl, rfl, rfl, rfl, rfl, rfl, _, rfl⟩

theorem quiet_attempt {key : MlDsaKeyMaterial} (ha : key.a = fun _ _ => .zero _)
    (hs1 : key.s1Hat = fun _ => .zero _) (hs2 : key.s2Hat = fun _ => .zero _)
    (ht0 : key.t0Hat = fun _ => .zero _) (mu rest : Bytes) :
    ∃ sig, signAttempt quietShake 256 PARAMS_44 key (0 :: mu) (0x22 :: rest) 0 =
    some (some sig) := by
  have hct (input : Bytes) : squeeze (quietShake.shake256 (0 :: mu ++ input)) 0 32 =
      List.replicate 32 0 := by
    rw [List.eq_replicate_iff, length_squeeze]
    refine ⟨rfl, fun octet h => ?_⟩
    obtain ⟨k, -, rfl⟩ := List.mem_map.mp h
    rfl
  obtain ⟨-, -, -, hball⟩ := quiet_samples
  obtain ⟨c, hc⟩ := Option.isSome_iff_exists.mp hball
  have hproduct := invntt_nttMul_zero (sampleInBall_sparse (by decide) hc).reduced
  have haccepted : ∃ sig, Accepted quietShake 256 PARAMS_44 key (0 :: mu) sig
      (List.replicate 32 0) c
      (fun _ => quietMask) (fun _ => .zero _) (fun _ => quietMask) (fun _ => .zero _)
      (fun _ => .zero _) := ⟨_, {
    y_reduced := fun _ => quietMask_reduced
    w_eq := by simp only [ha, accumulate_zero _ fun _ _ => ntt_isNtt quietMask_reduced, invntt_zero]
    ct_eq := (hct _).symm
    challenge := hc
    z_eq := by simp only [hs1, hproduct, polyAdd_zero quietMask_reduced]
    cs2_eq := by simp only [hs2, hproduct]
    ct0_eq := by simp only [ht0, hproduct]
    z_bound := by decide +kernel
    low_bound := by decide +kernel
    ct0_bound := by decide +kernel
    weight_le := by decide +kernel
    sig_eq := rfl }⟩
  obtain ⟨sig, haccepted⟩ := haccepted
  exact ⟨sig, signAttempt_of_accepted haccepted (funext fun i => (quiet_mask rest (0 + i)).symm)⟩

/-- A seed and a message of two octets. -/
theorem verifyMessage_of_signDerandInto_quiet :
    ∃ key sig, fromSeed quietShake 256 PARAMS_44 (1 :: List.replicate 31 0) = some key ∧
      signDerandInto quietShake 256 PARAMS_44 key [0x68, 0x69] [] (List.replicate 32 0) =
        some (.ok sig) ∧
      verifyMessage quietShake 256 PARAMS_44 key.pk [0x68, 0x69] sig [] = some (.ok ()) := by
  obtain ⟨key, hkey, ha, hs1, hs2, ht0, hbytes, rest, htr⟩ := quiet_key
  have hmu : ∃ mu, computeMessageHash quietShake key.tr [0x68, 0x69] [] = .ok (0 :: mu) := by
    rw [htr]
    exact ⟨_, rfl⟩
  obtain ⟨mu, hmu⟩ := hmu
  have hnonce :
      squeeze (quietShake.shake256 (key.keyBytes ++ List.replicate 32 0 ++ (0 :: mu))) 0 64 =
      0x22 :: List.replicate 63 0x22 := by
    rw [hbytes]
    rfl
  obtain ⟨sig, hsig⟩ := quiet_attempt ha hs1 hs2 ht0 mu (List.replicate 63 0x22)
  have hsign : signDerandInto quietShake 256 PARAMS_44 key [0x68, 0x69] [] (List.replicate 32 0) =
      some (.ok sig) := by
    rw [signDerandInto, hmu]
    simp only [signInternal, hnonce]
    rw [show MAX_SIGN_ITERATIONS = 813 + 1 from rfl, signLoop, hsig]
    rfl
  exact ⟨key, sig, hkey, hsign, verifyMessage_of_signDerandInto PARAMS_44 hkey hsign le_rfl le_rfl⟩

end Stdx.MlDsa
