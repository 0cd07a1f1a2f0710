import Stdx.Foundation.Exhaustive
import Stdx.MlKem.RoundTrip
import Mathlib.Algebra.Order.Round

/-!
# Compression of ML-KEM

What the packed fields are and what compression loses.  A ciphertext is the encoding of what
it unpacks to, and the modulus check of an encapsulation key is the test of FIPS 203: encoding
the decoded vector modulo `q` gives the key back.
-/

namespace Stdx.MlKem

open Stdx.Foundation

variable {K : Nat}

/-! ## The packings write fields -/

theorem packing4_fields (t : Nat → Nat) (ht : ∀ k, k < 8 → t k < 2 ^ 4) :
    Fields 4 (packing4.pack t) ((List.range 8).map t) := by
  refine Packing.fields_pack (by decide) ht ?_
  obtain ⟨⟨h0, h1, h2, h3⟩, h4, h5, h6, h7⟩ := lt_of_forall_lt_eight ht
  change leValue (packing4.pack t) = Nat.ofDigits (2 ^ 4) [t 0, t 1, t 2, t 3, t 4, t 5, t 6, t 7]
  simp (disch := omega) only [packing4, leValue_cons, leValue_nil, Nat.ofDigits_cons,
    Nat.ofDigits_nil, octet_toNat_ofNat, or_shiftLeft]
  omega

theorem packing5_fields (t : Nat → Nat) (ht : ∀ k, k < 8 → t k < 2 ^ 5) :
    Fields 5 (packing5.pack t) ((List.range 8).map t) := by
  refine Packing.fields_pack (by decide) ht ?_
  obtain ⟨⟨h0, h1, h2, h3⟩, h4, h5, h6, h7⟩ := lt_of_forall_lt_eight ht
  change leValue (packing5.pack t) = Nat.ofDigits (2 ^ 5) [t 0, t 1, t 2, t 3, t 4, t 5, t 6, t 7]
  simp (disch := omega) only [packing5, leValue_cons, leValue_nil, Nat.ofDigits_cons,
    Nat.ofDigits_nil, octet_toNat_ofNat, Nat.shiftRight_eq_div_pow, or_shiftLeft]
  omega

theorem packing10_fields (t : Nat → Nat) (ht : ∀ k, k < 4 → t k < 2 ^ 10) :
    Fields 10 (packing10.pack t) ((List.range 4).map t) := by
  refine Packing.fields_pack (by decide) ht ?_
  have h0 := ht 0 (by decide)
  have h1 := ht 1 (by decide)
  have h2 := ht 2 (by decide)
  have h3 := ht 3 (by decide)
  change leValue (packing10.pack t) = Nat.ofDigits (2 ^ 10) [t 0, t 1, t 2, t 3]
  simp (disch := omega) only [packing10, leValue_cons, leValue_nil, Nat.ofDigits_cons,
    Nat.ofDigits_nil, octet_toNat_ofNat, Nat.shiftRight_eq_div_pow, or_shiftLeft]
  omega

theorem packing11_fields (t : Nat → Nat) (ht : ∀ k, k < 8 → t k < 2 ^ 11) :
    Fields 11 (packing11.pack t) ((List.range 8).map t) := by
  refine Packing.fields_pack (by decide) ht ?_
  obtain ⟨⟨h0, h1, h2, h3⟩, h4, h5, h6, h7⟩ := lt_of_forall_lt_eight ht
  change leValue (packing11.pack t) = Nat.ofDigits (2 ^ 11) [t 0, t 1, t 2, t 3, t 4, t 5, t 6, t 7]
  simp (disch := omega) only [packing11, leValue_cons, leValue_nil, Nat.ofDigits_cons,
    Nat.ofDigits_nil, octet_toNat_ofNat, Nat.shiftRight_eq_div_pow, or_shiftLeft]
  omega

theorem packing12_fields (t : Nat → Nat) (ht : ∀ k, k < 2 → t k < 2 ^ 12) :
    Fields 12 (packing12.pack t) ((List.range 2).map t) := by
  refine Packing.fields_pack (by decide) ht ?_
  have h0 := ht 0 (by decide)
  have h1 := ht 1 (by decide)
  change leValue (packing12.pack t) = Nat.ofDigits (2 ^ 12) [t 0, t 1]
  simp (disch := omega) only [packing12, leValue_cons, leValue_nil, Nat.ofDigits_cons,
    Nat.ofDigits_nil, octet_toNat_ofNat, Nat.shiftRight_eq_div_pow, or_shiftLeft]
  omega

theorem packing4_onto : packing4.Onto :=
  .of_fields (by decide) (fun t t' h => by
    simp only [packing4, h 0 (by decide), h 1 (by decide), h 2 (by decide), h 3 (by decide),
      h 4 (by decide), h 5 (by decide), h 6 (by decide), h 7 (by decide)]) packing4_fields

theorem packing5_onto : packing5.Onto :=
  .of_fields (by decide) (fun t t' h => by
    simp only [packing5, h 0 (by decide), h 1 (by decide), h 2 (by decide), h 3 (by decide),
      h 4 (by decide), h 5 (by decide), h 6 (by decide), h 7 (by decide)]) packing5_fields

theorem packing10_onto : packing10.Onto :=
  .of_fields (by decide) (fun t t' h => by
    simp only [packing10, h 0 (by decide), h 1 (by decide), h 2 (by decide),
      h 3 (by decide)]) packing10_fields

theorem packing11_onto : packing11.Onto :=
  .of_fields (by decide) (fun t t' h => by
    simp only [packing11, h 0 (by decide), h 1 (by decide), h 2 (by decide), h 3 (by decide),
      h 4 (by decide), h 5 (by decide), h 6 (by decide), h 7 (by decide)]) packing11_fields

theorem packing12_onto : packing12.Onto :=
  .of_fields (by decide) (fun t t' h => by
    simp only [packing12, h 0 (by decide), h 1 (by decide)]) packing12_fields

/-! ## Rounding -/

def compressNat (d add mul shift x : Nat) : Nat :=
  ((x <<< d + add) * mul) >>> shift &&& (2 ^ d - 1)

def decompressNat (d t : Nat) : Nat := (t * 3329 + 2 ^ (d - 1)) >>> d

/-- What the constants of a compression have to satisfy: they round, and what is decompressed
is compressed to the same field. -/
structure Rounds (d add mul shift : Nat) : Prop where
  compress : ∀ x < 3329, compressNat d add mul shift x = (2 * (2 ^ d * x) + 3329) / 6658 % 2 ^ d
  decompress : ∀ t < 2 ^ d, decompressNat d t < 3329 ∧
    compressNat d add mul shift (decompressNat d t) = t

theorem rounds4 : Rounds 4 1665 80635 28 where
  compress := forall_lt_of_check (by decide +kernel)
  decompress := forall_lt_of_check (by decide)

theorem rounds5 : Rounds 5 1664 40318 27 where
  compress := forall_lt_of_check (by decide +kernel)
  decompress := forall_lt_of_check (by decide)

theorem rounds10 : Rounds 10 1665 1290167 32 where
  compress := forall_lt_of_check (by decide +kernel)
  decompress := forall_lt_of_check (by decide +kernel)

theorem rounds11 : Rounds 11 1664 645084 31 where
  compress := forall_lt_of_check (by decide +kernel)
  decompress := forall_lt_of_check (by decide +kernel)

theorem round_eq_div (d x : Nat) :
    round ((2 ^ d * x : ℚ) / 3329) = ((2 * (2 ^ d * x) + 3329) / 6658 : Nat) := by
  have hsplit : (2 ^ d * x : ℚ) / 3329 + 1 / 2 =
      ((2 * (2 ^ d * x) + 3329 : Nat) : ℚ) / (6658 : Nat) := by
    push_cast
    ring
  rw [round_eq, hsplit, Rat.floor_natCast_div_natCast]
  rfl

theorem round_error (d : Nat) :
    round ((3329 : ℚ) / 2 ^ (d + 1)) = ((3329 + 2 ^ d) / 2 ^ (d + 1) : Nat) := by
  have hsplit : (3329 : ℚ) / 2 ^ (d + 1) + 1 / 2 =
      ((3329 + 2 ^ d : Nat) : ℚ) / (2 ^ (d + 1) : Nat) := by
    push_cast
    rw [pow_succ]
    field_simp
  rw [round_eq, hsplit, Rat.floor_natCast_div_natCast]
  rfl

section Coefficient

variable {d add mul shift : Nat}

theorem compressCoeff_eq {c : Int} (hc : Within 3328 c) :
    compressCoeff d add mul shift c = compressNat d add mul shift (c % 3329).toNat := by
  have hresidue : asU64 (addQ c) = (c % 3329).toNat := by
    rw [addQ_eq hc, asU64]
    split <;> omega
  rw [compressCoeff, hresidue, compressNat]

theorem decompressCoeff_eq (t : Nat) : decompressCoeff d t = decompressNat d (t % 2 ^ d) := by
  rw [decompressCoeff, Nat.and_two_pow_sub_one_eq_mod, decompressNat]

theorem compressCoeff_round (h : Rounds d add mul shift) {c : Int} (hc : Within 3328 c) :
    (compressCoeff d add mul shift c : Int) =
      round ((2 ^ d * (c % 3329 : Int) : ℚ) / 3329) % 2 ^ d := by
  have hx : (c % 3329).toNat < 3329 := by omega
  have hcast : ((c % 3329 : Int) : ℚ) = ((c % 3329).toNat : ℚ) := by
    rw [← Int.cast_natCast, Int.toNat_of_nonneg (by omega)]
  rw [compressCoeff_eq hc, h.compress _ hx, hcast, round_eq_div]
  push_cast
  rfl

theorem compress_decompressCoeff (h : Rounds d add mul shift) (t : Nat) :
    compressCoeff d add mul shift (decompressCoeff d t) = t % 2 ^ d := by
  obtain ⟨hlt, hback⟩ := h.decompress (t % 2 ^ d) (Nat.mod_lt _ (by positivity))
  rw [decompressCoeff_eq, compressCoeff_eq (by omega)]
  rwa [show ((decompressNat d (t % 2 ^ d) : Int) % 3329).toNat = decompressNat d (t % 2 ^ d) by
    omega]

/-- A field and what it is decompressed to are each off by half at most; a coefficient next to
`q` is compressed to zero. -/
theorem decompress_compressNat (h : Rounds d add mul shift) (hd : 0 < d) {x : Nat}
    (hx : x < 3329) {y : Nat} (hy : decompressNat d (compressNat d add mul shift x) = y) :
    ∃ e : Int, (e = y - x ∨ e = y + 3329 - x) ∧ |e| ≤ (3329 + 2 ^ d) / 2 ^ (d + 1) := by
  have hpow : 2 ^ d = 2 * 2 ^ (d - 1) := by
    rw [← pow_succ', Nat.sub_add_cancel hd]
  have hpos : 0 < 2 ^ (d - 1) := by positivity
  have hcompress := h.compress x hx
  rw [decompressNat, Nat.shiftRight_eq_div_pow] at hy
  generalize compressNat d add mul shift x = t at hcompress hy
  have hnearest := Nat.div_add_mod (2 * (2 ^ d * x) + 3329) 6658
  have hrest := Nat.mod_lt (2 * (2 ^ d * x) + 3329) (show 0 < 6658 by decide)
  have hback := Nat.div_add_mod (t * 3329 + 2 ^ (d - 1)) (2 ^ d)
  have hback_rest := Nat.mod_lt (t * 3329 + 2 ^ (d - 1)) (show 0 < 2 ^ d by positivity)
  have hxle : 2 ^ d * x ≤ 2 ^ d * 3328 := Nat.mul_le_mul_left _ (by omega)
  rw [hy] at hback
  have hdouble : ∀ e : Int, |2 * ((2 ^ d : Nat) * e)| ≤ 3328 + (2 ^ d : Nat) →
      |e| ≤ (3329 + 2 ^ d) / 2 ^ (d + 1) := by
    intro e he
    rw [← mul_assoc, abs_mul, abs_of_nonneg (by positivity)] at he
    rw [Int.le_ediv_iff_mul_le (by positivity), pow_succ]
    push_cast at he ⊢
    linarith
  -- the field is `2 ^ d` exactly for the coefficients next to `q`
  obtain hlt | heq : (2 * (2 ^ d * x) + 3329) / 6658 < 2 ^ d ∨
      (2 * (2 ^ d * x) + 3329) / 6658 = 2 ^ d := by omega
  · rw [Nat.mod_eq_of_lt hlt] at hcompress
    refine ⟨y - x, .inl rfl, hdouble _ ?_⟩
    rw [Int.mul_sub, ← Int.natCast_mul, ← Int.natCast_mul, abs_le]
    omega
  · rw [heq, Nat.mod_self] at hcompress
    refine ⟨y + 3329 - x, .inr rfl, hdouble _ ?_⟩
    have hzero : y = 0 := by
      rw [← hy, hcompress, Nat.zero_mul, Nat.zero_add, Nat.div_eq_of_lt (by omega)]
    rw [hzero, Int.natCast_zero, Int.zero_add, Int.mul_sub, ← Int.natCast_mul, abs_le]
    omega

theorem decompress_compressCoeff (h : Rounds d add mul shift) (hd : 0 < d) {c : Int}
    (hc : Within 3328 c) :
    |Int.bmod (decompressCoeff d (compressCoeff d add mul shift c) - c) 3329| ≤
      round ((3329 : ℚ) / 2 ^ (d + 1)) := by
  have hx : (c % 3329).toNat < 3329 := by omega
  obtain ⟨e, heq, he⟩ := decompress_compressNat h hd hx rfl
  rw [decompressCoeff_eq, Nat.mod_eq_of_lt (compressCoeff_lt d add mul shift c),
    compressCoeff_eq hc, round_error]
  push_cast
  refine le_trans ?_ he
  generalize decompressNat d (compressNat d add mul shift (c % 3329).toNat) = y at heq
  have hbmod := Int.bmod_def (y - c) 3329
  rw [abs_le]
  rcases abs_cases e with ⟨habs, hsign⟩ | ⟨habs, hsign⟩ <;> rw [habs] <;> split at hbmod <;> omega

end Coefficient

/-! ## Packed polynomials -/

section Packed

variable {m w d : Nat} {P : Packing m w d}

theorem packPoly_unpackPoly (hP : P.Onto) (hm : m * (N / m) = N) {f : Int → Nat} {g : Nat → Int}
    (hfg : ∀ t, f (g t) = t % 2 ^ d) (octet : Nat → UInt8) :
    packPoly P f (unpackPoly P hm g octet) = (List.range (w * (N / m))).map octet := by
  refine hP.packAll_unpackAll fun i hi => ?_
  rw [Poly.coeff, unpackPoly, getD_map_of_lt g (by rwa [P.length_unpackAll]) 0 0, hfg]

theorem fields_packPoly
    (hfields : ∀ t, (∀ k, k < m → t k < 2 ^ d) → Fields d (P.pack t) ((List.range m).map t))
    (hm : m * (N / m) = N) {f : Int → Nat} (hf : ∀ c, f c < 2 ^ d) (poly : Poly) :
    Fields d (packPoly P f poly) ((List.range N).map fun i => f (poly.coeff i)) := by
  have h := @Packing.fields_packAll _ _ _ _ hfields (N / m) _ fun i _ => hf (poly.coeff i)
  rwa [hm] at h

theorem field_packPolys
    (hfields : ∀ t, (∀ k, k < m → t k < 2 ^ d) → Fields d (P.pack t) ((List.range m).map t))
    (hm : m * (N / m) = N) {f : Int → Nat} (hf : ∀ c, f c < 2 ^ d) (poly : Nat → Poly)
    {k i : Nat} (hk : k < K) (hi : i < N) :
    field d (ofChunks K fun p => packPoly P f (poly p)) (N * k + i) = f ((poly k).coeff i) := by
  have hlength : ∀ p, p < K →
      ((List.range N).map fun i => f ((poly p).coeff i)).length = N := by simp
  have hend : N * (k + 1) ≤ N * K := Nat.mul_le_mul_left _ hk
  rw [Nat.mul_add] at hend
  rw [(Fields.ofChunks fun p _ => fields_packPoly hfields hm hf (poly p)).field_eq
    (by rw [length_ofChunks hlength]; omega), getD_ofChunks hlength hk hi, getD_map_range _ hi]

end Packed

section Ciphertext

variable (params : MlKemParams K)

def du : Nat := if params.polyveccompressedbytes = 960 then 10 else 11

def dv : Nat := if params.polycompressedbytes = 128 then 4 else 5

theorem polyvecCompress_polyvecDecompress {input : Bytes}
    (hinput : input.length = params.polyveccompressedbytes) :
    polyvecCompress params (polyvecDecompress params input) = input := by
  rcases params.polyvec_eq with ⟨h, rfl⟩ | ⟨h, rfl⟩
  · simp only [polyvecCompress, polyvecDecompress, h]
    rw [h] at hinput
    refine Eq.trans (ofChunks_congr fun p hp => ?_) (ofChunks_getD (m := 320) hinput 0)
    rw [PolyVec.get_ofFn _ hp]
    exact packPoly_unpackPoly packing10_onto (by decide) (compress_decompressCoeff rounds10) _
  · simp only [polyvecCompress, polyvecDecompress, h]
    rw [h] at hinput
    refine Eq.trans (ofChunks_congr fun p hp => ?_) (ofChunks_getD (m := 352) hinput 0)
    rw [PolyVec.get_ofFn _ hp]
    exact packPoly_unpackPoly packing11_onto (by decide) (compress_decompressCoeff rounds11) _

theorem polyCompress_polyDecompress {input : Bytes}
    (hinput : input.length = params.polycompressedbytes) :
    polyCompress params (polyDecompress params input) = input := by
  have hself : (List.range input.length).map (fun i => input.getD i 0) = input :=
    ext_getD (by simp) 0 fun i hi => getD_map_range _ (by simpa using hi) 0
  rcases params.poly_eq with h | h
  · simp only [polyCompress, polyDecompress, h]
    rw [hinput, h] at hself
    exact (packPoly_unpackPoly packing4_onto (by decide) (compress_decompressCoeff rounds4) _).trans
      hself
  · simp only [polyCompress, polyDecompress, h]
    rw [hinput, h] at hself
    exact (packPoly_unpackPoly packing5_onto (by decide) (compress_decompressCoeff rounds5) _).trans
      hself

theorem packCiphertext_unpackCiphertext {c : Bytes}
    (hc : c.length = params.polyveccompressedbytes + params.polycompressedbytes) :
    packCiphertext params (unpackCiphertext params c).1 (unpackCiphertext params c).2 = c := by
  rw [packCiphertext, unpackCiphertext,
    polyvecCompress_polyvecDecompress params (by rw [List.length_take]; omega),
    polyCompress_polyDecompress params (by rw [List.length_take, List.length_drop]; omega),
    List.take_of_length_le (l := c.drop _) (by rw [List.length_drop]; omega),
    List.take_append_drop]

theorem polyvecCompress_spec {a : PolyVec K} {k i : Nat} (hk : k < K) (hi : i < N)
    (ha : Within 3328 ((a.get k).coeff i)) :
    (field (du params) (polyvecCompress params a) (N * k + i) : Int) =
        round ((2 ^ du params * ((a.get k).coeff i % 3329 : Int) : ℚ) / 3329) % 2 ^ du params ∧
      |Int.bmod (((polyvecDecompress params (polyvecCompress params a)).get k).coeff i -
        (a.get k).coeff i) 3329| ≤ round ((3329 : ℚ) / 2 ^ (du params + 1)) := by
  rw [coeff_polyvecDecompress params a hk hi]
  rcases params.polyvec_eq with ⟨h, -⟩ | ⟨h, -⟩
  · have hdu : du params = 10 := if_pos h
    simp only [polyvecCompress, roundU, hdu, h]
    rw [field_packPolys (f := compress10) packing10_fields (by decide)
      (compressCoeff_lt _ _ _ _) _ hk hi]
    exact ⟨compressCoeff_round rounds10 ha, decompress_compressCoeff rounds10 (by decide) ha⟩
  · have hdu : du params = 11 := if_neg (by rw [h]; decide)
    simp only [polyvecCompress, roundU, hdu, h]
    rw [field_packPolys (f := compress11) packing11_fields (by decide)
      (compressCoeff_lt _ _ _ _) _ hk hi]
    exact ⟨compressCoeff_round rounds11 ha, decompress_compressCoeff rounds11 (by decide) ha⟩

theorem polyCompress_spec {poly : Poly} {i : Nat} (hi : i < N)
    (hpoly : Within 3328 (poly.coeff i)) :
    (field (dv params) (polyCompress params poly) i : Int) =
        round ((2 ^ dv params * (poly.coeff i % 3329 : Int) : ℚ) / 3329) % 2 ^ dv params ∧
      |Int.bmod ((polyDecompress params (polyCompress params poly)).coeff i - poly.coeff i) 3329| ≤
        round ((3329 : ℚ) / 2 ^ (dv params + 1)) := by
  rw [coeff_polyDecompress params poly hi]
  rcases params.poly_eq with h | h
  · have hdv : dv params = 4 := if_pos h
    simp only [polyCompress, roundV, hdv, h]
    rw [(fields_packPoly (f := compress4) packing4_fields (by decide)
      (compressCoeff_lt _ _ _ _) poly).field_eq (by simpa using hi), getD_map_range _ hi]
    exact ⟨compressCoeff_round rounds4 hpoly, decompress_compressCoeff rounds4 (by decide) hpoly⟩
  · have hdv : dv params = 5 := if_neg (by rw [h]; decide)
    simp only [polyCompress, roundV, hdv, h]
    rw [(fields_packPoly (f := compress5) packing5_fields (by decide)
      (compressCoeff_lt _ _ _ _) poly).field_eq (by simpa using hi), getD_map_range _ hi]
    exact ⟨compressCoeff_round rounds5 hpoly, decompress_compressCoeff rounds5 (by decide) hpoly⟩

end Ciphertext

/-! ## Twelve-bit encodings -/

/-- The chunks of three octets; the last one is whole, as the length of an encoded vector is a
multiple of three. -/
def modulusCheckChunks : Bytes → Bool
  | b0 :: b1 :: b2 :: rest =>
    let c0 := (b0.toNat ||| b1.toNat <<< 8) &&& 0x0fff
    let c1 := (b1.toNat >>> 4 ||| b2.toNat <<< 4) &&& 0x0fff
    if c0 ≥ Q.toNat ∨ c1 ≥ Q.toNat then false else modulusCheckChunks rest
  | _ => true

def encapsulationKeyModulusCheck (K : Nat) (publicKey : Bytes) : Bool :=
  modulusCheckChunks (publicKey.take (polyvecBytes K))

def reduceModQ (v : PolyVec K) : PolyVec K := v.map (Poly.map (· % Q))

theorem Poly.map_eq_self {p : Poly} {f : Int → Int} (h : ∀ i, i < N → f (p.coeff i) = p.coeff i) :
    p.map f = p := by
  obtain ⟨coeffs, hlength⟩ := p
  refine (Poly.mk.injEq ..).mpr (ext_getD (List.length_map _) 0 fun i hi => ?_)
  rw [List.length_map] at hi
  rw [getD_map_of_lt f hi 0 0]
  exact h i (hlength ▸ hi)

theorem PolyVec.map_eq_self {v : PolyVec K} {f : Poly → Poly}
    (h : ∀ k, k < K → f (v.get k) = v.get k) : v.map f = v := by
  obtain ⟨vec, hlength⟩ := v
  refine (PolyVec.mk.injEq ..).mpr (ext_getD (List.length_map _) .zero fun k hk => ?_)
  rw [List.length_map] at hk
  rw [getD_map_of_lt f hk .zero .zero]
  exact h k (hlength ▸ hk)

theorem reduceModQ_bounds (v : PolyVec K) {k i : Nat} (hk : k < K) (hi : i < N) :
    ((reduceModQ v).get k).coeff i = (v.get k).coeff i % 3329 := by
  rw [reduceModQ, PolyVec.get_map _ _ hk, Poly.coeff_map _ _ hi]
  rfl

theorem coeff_polyvecFrombytes (input : Bytes) {k j r : Nat} (hk : k < K) (hj : j < N / 2)
    (hr : r < 2) :
    ((polyvecFrombytes K input).get k).coeff (2 * j + r) =
      ((packing12.unpack fun s => input.getD (384 * k + (3 * j + s)) 0).getD r 0 % 2 ^ 12 :
        Nat) := by
  have hin : 2 * j + r < 2 * (N / 2) := by omega
  have hchunk : (packing12.unpack fun s =>
      ((input.drop (k * POLY_BYTES)).take POLY_BYTES).getD (3 * j + s) 0) =
        packing12.unpack fun s => input.getD (384 * k + (3 * j + s)) 0 := by
    refine packing12.reads _ _ fun s hs => ?_
    have hbound : 3 * j + s < POLY_BYTES := by
      simp only [POLY_BYTES, N] at *
      omega
    rw [getD_take _ hbound, getD_drop, Nat.mul_comm k]
    rfl
  rw [polyvecFrombytes, PolyVec.get_ofFn _ hk, polyFrombytes, Poly.coeff, unpackPoly,
    getD_map_of_lt _ (by rwa [Packing.length_unpackAll]) 0 0, Packing.getD_unpackAll _ hj hr,
    hchunk, show (0xfff : Nat) = 2 ^ 12 - 1 by rfl, Nat.and_two_pow_sub_one_eq_mod]

theorem coeff_polyvecFrombytes_bounds (input : Bytes) {k i : Nat} (hk : k < K) (hi : i < N) :
    0 ≤ ((polyvecFrombytes K input).get k).coeff i ∧
      ((polyvecFrombytes K input).get k).coeff i < 4096 := by
  refine forall_chunk (m := 2) (n := N / 2) (P := fun i =>
    0 ≤ ((polyvecFrombytes K input).get k).coeff i ∧
      ((polyvecFrombytes K input).get k).coeff i < 4096) (by decide)
    (fun j r hj hr => ?_) (hi.trans_eq (by decide))
  rw [coeff_polyvecFrombytes input hk hj hr]
  omega

/-- Twelve bits are kept, also above `q`. -/
theorem polyvecTobytes_polyvecFrombytes {input : Bytes} (hinput : input.length = polyvecBytes K) :
    polyvecTobytes (polyvecFrombytes K input) = input := by
  have hmask : ∀ t : Nat, asU64 (addQ ((t &&& 0xfff : Nat) : Int)) = t % 2 ^ 12 := by
    intro t
    rw [show (0xfff : Nat) = 2 ^ 12 - 1 by rfl, Nat.and_two_pow_sub_one_eq_mod, addQ,
      Int.shiftRight_eq_div_pow, if_neg (by omega), asU64]
    omega
  rw [polyvecBytes, Nat.mul_comm] at hinput
  refine Eq.trans (ofChunks_congr fun k hk => ?_) (ofChunks_getD (m := 384) hinput 0)
  have hpack := packPoly_unpackPoly (f := fun c => asU64 (addQ c))
    (g := fun t => ((t &&& 0xfff : Nat) : Int)) packing12_onto (by decide) hmask
    fun i => ((input.drop (k * POLY_BYTES)).take POLY_BYTES).getD i 0
  rw [show 3 * (N / 2) = 384 from by decide] at hpack
  rw [polyvecFrombytes, PolyVec.get_ofFn _ hk, polyTobytes, polyFrombytes, hpack]
  refine List.map_congr_left fun i hi => ?_
  have hbound : i < POLY_BYTES := List.mem_range.mp hi
  rw [getD_take _ hbound, getD_drop, Nat.mul_comm k]
  rfl

theorem coeff_polyvecFrombytes_polyvecTobytes {v : PolyVec K} {k i : Nat} (hk : k < K)
    (hi : i < N) (hv : (v.get k).Bounded 3328) :
    ((polyvecFrombytes K (polyvecTobytes v)).get k).coeff i = (v.get k).coeff i % 3329 := by
  have hlength : ∀ j, j < K → (polyTobytes (v.get j)).length = POLY_BYTES :=
    fun _ _ => length_packPoly _ _ _
  have hinput : ∀ i, i < POLY_BYTES →
      (((polyvecTobytes v).drop (k * POLY_BYTES)).take POLY_BYTES).getD i 0 =
        (polyTobytes (v.get k)).getD i 0 := by
    intro i hi
    rw [getD_take _ hi, getD_drop, Nat.mul_comm k, polyvecTobytes, getD_ofChunks hlength hk hi]
  have hcoeff := coeff_polyFrombytes hv hinput hi
  have hresidue := addQ_eq (hv i hi)
  have hbound := hv i hi
  rw [polyvecFrombytes, PolyVec.get_ofFn _ hk, hcoeff, hresidue]
  split <;> omega

theorem modulusCheckChunks_iff {n : Nat} {input : Bytes} (h : input.length = 3 * n) :
    modulusCheckChunks input = true ↔ ∀ j < n, ∀ r < 2,
      (packing12.unpack fun s => input.getD (3 * j + s) 0).getD r 0 % 2 ^ 12 < 3329 := by
  induction n generalizing input with
  | zero =>
    obtain rfl := List.length_eq_zero_iff.mp h
    simp [modulusCheckChunks]
  | succ n ih =>
    match input, h with
    | b0 :: b1 :: b2 :: rest, h =>
      have hrest : rest.length = 3 * n := by
        simp only [List.length_cons] at h
        omega
      have hnext : ∀ j, (packing12.unpack fun s =>
          (b0 :: b1 :: b2 :: rest).getD (3 * (j + 1) + s) 0) =
            packing12.unpack fun s => rest.getD (3 * j + s) 0 := by
        intro j
        refine packing12.reads _ _ fun s _ => ?_
        rw [show 3 * (j + 1) + s = 3 * j + s + 1 + 1 + 1 by omega, List.getD_cons_succ,
          List.getD_cons_succ, List.getD_cons_succ]
      have hfirst : (∀ r < 2, (packing12.unpack fun s =>
          (b0 :: b1 :: b2 :: rest).getD (3 * 0 + s) 0).getD r 0 % 2 ^ 12 < 3329) ↔
            (b0.toNat ||| b1.toNat <<< 8) % 2 ^ 12 < 3329 ∧
              (b1.toNat >>> 4 ||| b2.toNat <<< 4) % 2 ^ 12 < 3329 := by
        refine ⟨fun hall => ⟨hall 0 (by decide), hall 1 (by decide)⟩, ?_⟩
        rintro ⟨h0, h1⟩ r hr
        obtain rfl | rfl : r = 0 ∨ r = 1 := by omega
        · exact h0
        · exact h1
      rw [Nat.forall_lt_succ_left, hfirst]
      simp only [hnext]
      rw [← ih hrest, modulusCheckChunks, show (0x0fff : Nat) = 2 ^ 12 - 1 by rfl,
        Nat.and_two_pow_sub_one_eq_mod, Nat.and_two_pow_sub_one_eq_mod,
        show Q.toNat = 3329 by rfl]
      split
      · next hbad =>
        constructor
        · intro hfalse
          cases hfalse
        · rintro ⟨⟨h0, h1⟩, -⟩
          omega
      · next hgood => exact ⟨fun hcheck => ⟨by omega, hcheck⟩, fun hcheck => hcheck.2⟩

/-- The check passes exactly when every decoded coefficient is below `q`. -/
theorem encapsulationKeyModulusCheck_iff {publicKey : Bytes}
    (h : publicKey.length = publicKeyBytes K) :
    encapsulationKeyModulusCheck K publicKey = true ↔ ∀ k < K, ∀ i < N,
      ((polyvecFrombytes K (publicKey.take (polyvecBytes K))).get k).coeff i < 3329 := by
  have hlength : (publicKey.take (polyvecBytes K)).length = 3 * (128 * K) := by
    rw [List.length_take, h, publicKeyBytes, polyvecBytes, POLY_BYTES]
    omega
  rw [encapsulationKeyModulusCheck, modulusCheckChunks_iff hlength]
  generalize publicKey.take (polyvecBytes K) = input
  have hcoeff := fun {k j r : Nat} (hk : k < K) (hj : j < N / 2) (hr : r < 2) =>
    coeff_polyvecFrombytes input hk hj hr
  constructor
  · intro hall k hk i hi
    refine forall_chunk (m := 2) (n := N / 2) (P := fun i =>
      ((polyvecFrombytes K input).get k).coeff i < 3329) (by decide)
      (fun j r hj hr => ?_) (hi.trans_eq (by decide))
    have hend : 128 * (k + 1) ≤ 128 * K := Nat.mul_le_mul_left _ hk
    have hj' : j < 128 := hj
    have hentry := hall (128 * k + j) (by omega) r hr
    rw [hcoeff hk hj hr]
    simp only [Nat.mul_add, ← Nat.mul_assoc, Nat.add_assoc] at hentry ⊢
    exact_mod_cast hentry
  · intro hall J hJ r hr
    refine forall_chunk (m := 128) (n := K) (P := fun J => (packing12.unpack fun s =>
      input.getD (3 * J + s) 0).getD r 0 % 2 ^ 12 < 3329) (by decide) (fun k j hk hj => ?_) hJ
    have hentry := hall k hk (2 * j + r) (by simp only [N]; omega)
    rw [hcoeff hk hj hr] at hentry
    simp only [Nat.mul_add, ← Nat.mul_assoc, Nat.add_assoc] at hentry ⊢
    exact_mod_cast hentry

theorem encapsulationKeyModulusCheck_eq {publicKey : Bytes}
    (h : publicKey.length = publicKeyBytes K) :
    encapsulationKeyModulusCheck K publicKey = true ↔
      polyvecTobytes (reduceModQ (polyvecFrombytes K (publicKey.take (polyvecBytes K)))) =
        publicKey.take (polyvecBytes K) := by
  have hlength : (publicKey.take (polyvecBytes K)).length = polyvecBytes K := by
    rw [List.length_take, h, publicKeyBytes]
    omega
  rw [encapsulationKeyModulusCheck_iff h]
  generalize publicKey.take (polyvecBytes K) = input at hlength ⊢
  have hbounds := fun {k i : Nat} (hk : k < K) (hi : i < N) =>
    coeff_polyvecFrombytes_bounds (K := K) input hk hi
  constructor
  · intro hall
    have hself : reduceModQ (polyvecFrombytes K input) = polyvecFrombytes K input := by
      refine PolyVec.map_eq_self fun k hk => Poly.map_eq_self fun i hi => ?_
      have hlt := hall k hk i hi
      have hnonneg := (hbounds hk hi).1
      change _ % (3329 : Int) = _
      omega
    rw [hself, polyvecTobytes_polyvecFrombytes hlength]
  · intro hback k hk i hi
    have hreduced : ((reduceModQ (polyvecFrombytes K input)).get k).Bounded 3328 := by
      intro i hi
      rw [reduceModQ_bounds _ hk hi]
      omega
    have hcoeff := coeff_polyvecFrombytes_polyvecTobytes hk hi hreduced
    rw [hback, reduceModQ_bounds _ hk hi] at hcoeff
    omega

/-! ## The codecs -/

theorem codecs (params : MlKemParams K) :
    (∀ c : Bytes, c.length = params.polyveccompressedbytes + params.polycompressedbytes →
      packCiphertext params (unpackCiphertext params c).1 (unpackCiphertext params c).2 = c) ∧
    (∀ a : PolyVec K, (∀ k < K, (a.get k).Bounded 3328) → ∀ k < K, ∀ i < N,
      (field (du params) (polyvecCompress params a) (N * k + i) : Int) =
          round ((2 ^ du params * ((a.get k).coeff i % 3329 : Int) : ℚ) / 3329) %
            2 ^ du params ∧
        |Int.bmod (((polyvecDecompress params (polyvecCompress params a)).get k).coeff i -
          (a.get k).coeff i) 3329| ≤ round ((3329 : ℚ) / 2 ^ (du params + 1))) ∧
    (∀ poly : Poly, poly.Bounded 3328 → ∀ i < N,
      (field (dv params) (polyCompress params poly) i : Int) =
          round ((2 ^ dv params * (poly.coeff i % 3329 : Int) : ℚ) / 3329) % 2 ^ dv params ∧
        |Int.bmod ((polyDecompress params (polyCompress params poly)).coeff i -
          poly.coeff i) 3329| ≤ round ((3329 : ℚ) / 2 ^ (dv params + 1))) ∧
    (∀ v : PolyVec K, (∀ k < K, (v.get k).Bounded 3328) → ∀ k < K, ∀ i < N,
      ((polyvecFrombytes K (polyvecTobytes v)).get k).coeff i = (v.get k).coeff i % 3329) ∧
    ∀ publicKey : Bytes, publicKey.length = publicKeyBytes K →
      (encapsulationKeyModulusCheck K publicKey = true ↔
        polyvecTobytes (reduceModQ (polyvecFrombytes K (publicKey.take (polyvecBytes K)))) =
          publicKey.take (polyvecBytes K)) :=
  ⟨fun _ hc => packCiphertext_unpackCiphertext params hc,
    fun _ ha _ hk i hi => polyvecCompress_spec params hk hi (ha _ hk i hi),
    fun _ hpoly i hi => polyCompress_spec params hi (hpoly i hi),
    fun _ hv k hk _ hi => coeff_polyvecFrombytes_polyvecTobytes hk hi (hv k hk),
    fun _ hpk => encapsulationKeyModulusCheck_eq hpk⟩

/-- The key whose octets are all one passes the check, so it is read and written back. -/
theorem codecs_ones : polyvecTobytes (reduceModQ (polyvecFrombytes 3
    ((List.replicate (publicKeyBytes 3) 1).take (polyvecBytes 3)))) =
      (List.replicate (publicKeyBytes 3) 1).take (polyvecBytes 3) :=
  ((codecs ML_KEM_768).2.2.2.2 (List.replicate (publicKeyBytes 3) 1) List.length_replicate).mp
    (by decide +kernel)

end Stdx.MlKem
