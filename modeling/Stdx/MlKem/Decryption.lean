import Stdx.MlKem.Compression

/-!
# Decryption recovers the message

The residues of every vector of the scheme are followed through key generation,
encryption and decryption.  What decryption sees is the message plus the noise
term `delta`; a coefficient of the message survives noise up to 831, and with the
message the re-encryption of decapsulation is the ciphertext.
-/

namespace Stdx.MlKem

open Stdx.Foundation

/-! ## The noise identity -/

section Identity

open Finset

variable {R : Type*} [CommRing R]

/-- `e^T r + e2 + dv - s^T (e1 + du)` -/
def noiseTerm (n K : Nat) (s e r e1 du : Nat → Nat → R) (e2 dv : Nat → R) (i : Nat) : R :=
  ∑ k ∈ range K, negacyclic n (e k) (r k) i + e2 i + dv i -
    ∑ j ∈ range K, negacyclic n (s j) (fun x => e1 j x + du j x) i

/-- `(A s + e)^T r + e2 + msg + dv - s^T (A^T r + e1 + du)` -/
def decryptTerm (n K : Nat) (a : Nat → Nat → Nat → R) (s e r e1 du : Nat → Nat → R)
    (e2 msg dv : Nat → R) (i : Nat) : R :=
  ∑ k ∈ range K, negacyclic n
        (fun x => ∑ j ∈ range K, negacyclic n (a k j) (s j) x + e k x) (r k) i +
      e2 i + msg i + dv i -
    ∑ j ∈ range K, negacyclic n (s j)
      (fun x => ∑ k ∈ range K, negacyclic n (a k j) (r k) x + e1 j x + du j x) i

theorem decryptTerm_eq [Nontrivial R] {n K : Nat} (hn : 0 < n)
    (a : Nat → Nat → Nat → R) (s e r e1 du : Nat → Nat → R) (e2 msg dv : Nat → R)
    {i : Nat} (hi : i < n) :
    decryptTerm n K a s e r e1 du e2 msg dv i =
      msg i + noiseTerm n K s e r e1 du e2 dv i := by
  refine toRing_inj hn (x := decryptTerm n K a s e r e1 du e2 msg dv)
    (y := fun i => msg i + noiseTerm n K s e r e1 du e2 dv i) ?_ hi
  unfold decryptTerm noiseTerm
  simp only [toRing_add, toRing_sub, toRing_sum, toRing_negacyclic]
  -- Both matrix products are the same double sum.
  have hswap : ∑ k ∈ range K, ∑ j ∈ range K,
        toRing n (a k j) * toRing n (s j) * toRing n (r k) =
      ∑ j ∈ range K, ∑ k ∈ range K,
        toRing n (s j) * (toRing n (a k j) * toRing n (r k)) := by
    rw [sum_comm]
    exact sum_congr rfl fun j _ => sum_congr rfl fun k _ => by ring
  simp only [add_mul, mul_add, sum_mul, mul_sum, sum_add_distrib]
  linear_combination hswap

end Identity

/-! ## Message bits -/

def messageBit (msg : Bytes) (i : Nat) : Nat :=
  (msg.getD (i / 8) 0).toNat >>> (i % 8) &&& 1

theorem messageBit_cases (msg : Bytes) (i : Nat) :
    messageBit msg i = 0 ∨ messageBit msg i = 1 := by
  rw [messageBit, Nat.and_one_is_mod]
  omega

theorem coeff_polyFrommsg (msg : Bytes) {i : Nat} (hi : i < N) :
    (polyFrommsg msg).coeff i = 1665 * (messageBit msg i : Int) := by
  refine forall_chunk (m := 8) (n := N / 8)
    (P := fun i => (polyFrommsg msg).coeff i = 1665 * (messageBit msg i : Int))
    (by decide) (fun i j hi hj => ?_) (show i < 8 * (N / 8) from hi)
  have hdiv : (8 * i + j) / 8 = i := by omega
  have hmod : (8 * i + j) % 8 = j := by omega
  have hbit := messageBit_cases msg (8 * i + j)
  rw [polyFrommsg, Poly.coeff_ofChunks _ _ hi hj, getD_map_range _ hj]
  rw [messageBit, hdiv, hmod] at hbit ⊢
  rcases hbit with h | h
  · rw [h, if_neg (by decide)]
    rfl
  · rw [h, if_pos rfl]
    rfl

theorem tomsgBit_eq {c d : Int} {bit : Nat} (hbit : bit = 0 ∨ bit = 1)
    (hc : Within 1664 c) (hd : Within 831 d)
    (h : (c : F) = ((1665 * bit + d : Int) : F)) : tomsgBit c = bit := by
  obtain ⟨k, hk⟩ := (ZMod.intCast_eq_intCast_iff_dvd_sub _ _ _).mp h
  rw [tomsgBit, Int.shiftRight_eq_div_pow, Int.shiftLeft_eq]
  generalize ht : (c * 2 ^ 1 + 1665) * 80635 = t
  rcases hbit with rfl | rfl
  · have hk0 : k = 0 := by omega
    have hrange : 0 ≤ t ∧ t < 268435456 := by omega
    clear ht
    omega
  · have hk01 : k = 0 ∨ k = 1 := by omega
    rcases hk01 with rfl | rfl
    · have hrange : 268435456 ≤ t ∧ t < 536870912 := by omega
      clear ht
      omega
    · have hrange : -268435456 ≤ t ∧ t < 0 := by omega
      clear ht
      omega

theorem testBit_bitAt (c : UInt8) {i j : Nat} (hj : j < 8) :
    (UInt8.ofNat ((c.toNat >>> j &&& 1) <<< j)).toNat.testBit i =
      (decide (i = j) && c.toNat.testBit j) := by
  have hlt : (c.toNat >>> j &&& 1) <<< j < 2 ^ 8 := by
    rw [Nat.and_one_is_mod, Nat.shiftLeft_eq]
    calc c.toNat >>> j % 2 * 2 ^ j ≤ 1 * 2 ^ j := Nat.mul_le_mul_right _ (by omega)
      _ < 2 ^ 8 := by rw [Nat.one_mul]; exact Nat.pow_lt_pow_right (by omega) hj
  rw [UInt8.toNat_ofNat_of_lt' hlt, Nat.testBit_shiftLeft, Nat.testBit_and, Nat.testBit_shiftRight]
  rcases Nat.lt_trichotomy i j with h | rfl | h
  · simp [Nat.not_le.mpr h, Nat.ne_of_lt h]
  · simp
  · have hdiff : Nat.testBit 1 (i - j) = false := by
      rw [← Bool.not_eq_true, Nat.testBit_one_eq_true_iff_self_eq_zero]
      omega
    simp [hdiff, Nat.ne_of_gt h]

theorem bits_octet (c : UInt8) :
    forRange 0 8 (fun j octet => octet ||| UInt8.ofNat ((c.toNat >>> j &&& 1) <<< j)) 0 = c := by
  have hbits := @forRange_rule _
    (fun j octet => octet ||| UInt8.ofNat ((c.toNat >>> j &&& 1) <<< j))
    (fun n octet => ∀ i, octet.toNat.testBit i = (decide (i < n) && c.toNat.testBit i)) 0 8
    (fun j octet _ hj h i => by
      rw [UInt8.toNat_or, Nat.testBit_or, h, testBit_bitAt c (by omega)]
      by_cases hi : i = j
      · subst hi
        simp
      · have hstep : i < j + 1 ↔ i < j := by omega
        simp [hi, hstep]) 0 (fun i => by simp)
  apply UInt8.toNat_inj.mp
  apply Nat.eq_of_testBit_eq
  intro i
  rw [hbits]
  by_cases hi : i < 8
  · simp [hi]
  · have hlarge : c.toNat < 2 ^ i :=
      Nat.lt_of_lt_of_le c.toNat_lt (Nat.pow_le_pow_right (by omega) (by omega))
    rw [Nat.testBit_lt_two_pow hlarge, Bool.and_false]

theorem polyTomsg_eq {poly : Poly} {msg : Bytes} (hmsg : msg.length = 32)
    (h : ∀ i, i < N → tomsgBit (poly.coeff i) = messageBit msg i) :
    polyTomsg poly = msg := by
  refine ext_getD (by simp [polyTomsg, hmsg, N]) 0 fun i hi => ?_
  have hi32 : i < N / 8 := by simpa [polyTomsg] using hi
  rw [polyTomsg, getD_map_range _ hi32, ← bits_octet (msg.getD i 0)]
  refine forRange_congr (fun j octet _ hj => ?_) 0
  have hdiv : (8 * i + j) / 8 = i := by omega
  have hmod : (8 * i + j) % 8 = j := by omega
  rw [h _ (by simp only [N] at hi32 ⊢; omega), messageBit, hdiv, hmod]

/-! ## Vectors of the scheme -/

variable {K : Nat}

def ringOf (p : Poly) (i : Nat) : F := 3303 * inverse twiddle 8 7 7 p.residue i

theorem isNtt_ringOf (p : Poly) : p.IsNtt (ringOf p) := by
  intro i hi
  have hone : (3303 : F) * 2 ^ 7 = 1 := by decide
  have hundo := twiddles.forward_inverse (h := 8) (by decide) le_rfl p.residue
    (show i < 2 ^ 8 from hi)
  unfold ringOf
  rw [forward_smul]
  beta_reduce
  rw [hundo]
  linear_combination (-p.residue i) * hone

theorem Poly.IsNtt.congr {p : Poly} {x y : Nat → F} (hp : p.IsNtt x)
    (hxy : ∀ i, i < N → x i = y i) : p.IsNtt y := fun i hi =>
  (hp i hi).trans (forward_congr (h := 8) (by decide) hxy hi)

/-- Each polynomial of the vector is a transform, with coefficients at most `B`. -/
def PolyVec.Transforms (B : Int) (v : PolyVec K) (x : Nat → Nat → F) : Prop :=
  ∀ k, k < K → (v.get k).Bounded B ∧ (v.get k).IsNtt (x k)

theorem PolyVec.Transforms.mono {B B' : Int} (h : B ≤ B') {v : PolyVec K}
    {x : Nat → Nat → F} (hv : v.Transforms B x) : v.Transforms B' x := fun k hk =>
  ⟨(hv k hk).1.mono h, (hv k hk).2⟩

theorem polyvecNtt_transforms {v : PolyVec K} (hv : ∀ k, k < K → (v.get k).Bounded 9471) :
    (polyvecNtt v).Transforms 1664 fun k => (v.get k).residue := by
  intro k hk
  rw [polyvecNtt, v.get_map _ hk]
  exact polyNtt_spec (hv k hk)

theorem noiseVec_bounded (H : Sha3) (seed : Bytes) (offset eta : Nat) {k : Nat}
    (hk : k < K) : ((noiseVec H K seed offset eta).get k).Bounded 3 := by
  rw [noiseVec_get _ _ _ _ hk]
  exact polyGetnoise_bounded _ _ _ _

theorem polyvecFrombytes_transforms {v : PolyVec K} {x : Nat → Nat → F}
    (hv : v.Transforms 1664 x) (rest : Bytes) :
    (polyvecFrombytes K (polyvecTobytes v ++ rest)).Transforms 4096 x := by
  intro k hk
  obtain ⟨hbound, hres⟩ := polyvecFrombytes_spec
    (fun k hk => (hv k hk).1.mono (by decide)) rest hk
  exact ⟨hbound, fun i hi => (hres i hi).trans ((hv k hk).2 i hi)⟩

theorem polyTomont_spec {p : Poly} (hp : p.Bounded 32767) :
    (polyTomont p).Bounded 3328 ∧
      ∀ i, i < N → (polyTomont p).residue i = montInv * 1353 * p.residue i := by
  have hcoeff := fun i (hi : i < N) => montgomeryReduce_spec (a := p.coeff i * 1353) (by
    have := hp i hi
    omega)
  constructor
  · intro i hi
    rw [polyTomont, p.coeff_map _ hi]
    exact (hcoeff i hi).2
  · intro i hi
    rw [Poly.residue, polyTomont, p.coeff_map _ hi, (hcoeff i hi).1, Poly.residue]
    push_cast
    ring

theorem polyInvnttTomont_acc (hK : 0 < K) (hK4 : K ≤ 4) {a b : PolyVec K}
    {x y : Nat → Nat → F} (ha : a.Transforms 4096 x) (hb : b.Transforms 4096 y) :
    (polyInvnttTomont (polyvecBasemulAccMontgomery a b)).Bounded 3328 ∧
      ∀ i, i < N → (polyInvnttTomont (polyvecBasemulAccMontgomery a b)).residue i =
        ∑ k ∈ Finset.range K, negacyclic N (x k) (y k) i := by
  obtain ⟨hbound, hval⟩ := polyvecBasemulAcc_isNtt hK hK4 ha hb
  have hbound := hbound.mono (show (1664 : Int) ≤ 16383 by decide)
  exact ⟨(polyInvnttTomont_spec hbound).1,
    fun i hi => polyInvnttTomont_forward hbound hval hi⟩

theorem params_K (params : MlKemParams K) : 0 < K ∧ K ≤ 4 := by
  rcases params.polyvec_eq with ⟨-, h⟩ | ⟨-, h⟩ <;> omega

/-! ## Key generation -/

theorem genMatrix_row {H : Sha3} {fuel : Nat} {seed : Bytes} {transpose : Bool}
    {matrix : List (PolyVec K)} (h : genMatrix H fuel K seed transpose = some matrix)
    (d : PolyVec K) {i : Nat} (hi : i < K) :
    (matrix.getD i d).Transforms 4096 fun j => ringOf ((matrix.getD i d).get j) := by
  intro j hj
  have hentry := genMatrix_some h d hi hj
  refine ⟨?_, isNtt_ringOf _⟩
  cases transpose with
  | false => exact uniformPoly_bounded hentry
  | true => exact uniformPoly_bounded hentry

/-- What is published and kept: `A s + e` and `s`, transformed. -/
theorem indcpaKeypairDerand_spec {H : Sha3} {fuel : Nat} {params : MlKemParams K}
    {coins pk sk : Bytes} (h : indcpaKeypairDerand H fuel params coins = some (pk, sk)) :
    ∃ (entry : Nat → Nat → Poly) (pkpv skpv : PolyVec K),
      (∀ i j, i < K → j < K →
        matrixEntry H fuel (keySeeds H K coins).1 false i j = some (entry i j)) ∧
      pk = packPk pkpv (keySeeds H K coins).1 ∧ sk = packSk skpv ∧
      skpv.Transforms 1664 (fun k =>
        ((noiseVec H K (keySeeds H K coins).2 0 params.eta1).get k).residue) ∧
      pkpv.Transforms 1664 (fun k x => ∑ j ∈ Finset.range K,
        negacyclic N (ringOf (entry k j))
          ((noiseVec H K (keySeeds H K coins).2 0 params.eta1).get j).residue x +
        ((noiseVec H K (keySeeds H K coins).2 K params.eta1).get k).residue x) := by
  simp only [indcpaKeypairDerand, Option.bind_eq_bind, Option.bind_eq_some_iff,
    Option.some.injEq, Prod.mk.injEq] at h
  obtain ⟨matrix, hmatrix, hpk, hsk⟩ := h
  obtain ⟨hK, hK4⟩ := params_K params
  generalize hs : noiseVec H K (keySeeds H K coins).2 0 params.eta1 = s at *
  generalize he : noiseVec H K (keySeeds H K coins).2 K params.eta1 = e at *
  have hsB : ∀ k, k < K → (s.get k).Bounded 9471 := fun k hk => by
    rw [← hs]
    exact (noiseVec_bounded _ _ _ _ hk).mono (by decide)
  have heB : ∀ k, k < K → (e.get k).Bounded 9471 := fun k hk => by
    rw [← he]
    exact (noiseVec_bounded _ _ _ _ hk).mono (by decide)
  have hsk' := polyvecNtt_transforms hsB
  have he' := polyvecNtt_transforms heB
  refine ⟨fun i j => (matrix.getD i (.ofFn K fun _ => .zero)).get j, _, _,
    fun i j hi hj => genMatrix_some hmatrix _ hi hj, hpk.symm, hsk.symm, hsk',
    fun k hk => ?_⟩
  obtain ⟨haccB, hacc⟩ := polyvecBasemulAcc_isNtt hK hK4 (genMatrix_row hmatrix _ hk)
    (hsk'.mono (show (1664 : Int) ≤ 4096 by decide))
  obtain ⟨hmontB, hmont⟩ := polyTomont_spec (haccB.mono (by decide))
  obtain ⟨haddB, hadd⟩ := polyAdd_spec hmontB (he' k hk).1 (by decide)
  obtain ⟨hredB, hred⟩ := polyReduce_spec (haddB.mono (by decide))
  have hget : (polyvecReduce (polyvecAdd (PolyVec.ofFn K fun i =>
      polyTomont (polyvecBasemulAccMontgomery
        (matrix.getD i (.ofFn K fun _ => .zero)) (polyvecNtt s))) (polyvecNtt e))).get k =
      polyReduce (polyAdd (polyTomont (polyvecBasemulAccMontgomery
        (matrix.getD k (.ofFn K fun _ => .zero)) (polyvecNtt s))) ((polyvecNtt e).get k)) := by
    rw [polyvecReduce, PolyVec.get_map _ _ hk, polyvecAdd, PolyVec.get_zipWith _ _ _ hk,
      PolyVec.get_ofFn _ hk]
  rw [hget]
  refine ⟨hredB, fun i hi => ?_⟩
  have hone : montInv * 1353 * montInv = 1 := by decide
  rw [hred i hi, hadd i hi, hmont i hi, hacc i hi, (he' k hk).2 i hi, forward_add]
  linear_combination (forward twiddle 8 7 (fun i => ∑ j ∈ Finset.range K,
    negacyclic N (ringOf ((matrix.getD k (.ofFn K fun _ => .zero)).get j))
      (s.get j).residue i) i) * hone

/-! ## Encryption -/

theorem length_keySeed (H : Sha3) (K : Nat) (coins : Bytes) :
    (keySeeds H K coins).1.length = 32 := by
  simp only [keySeeds, List.length_take, FixedBytes.length_eq]
  decide

theorem unpackPk_packPk (pk : PolyVec K) {seed : Bytes} (hseed : seed.length = 32) :
    unpackPk K (packPk pk seed) = (polyvecFrombytes K (polyvecTobytes pk ++ []), seed) := by
  have hlength := length_polyvecTobytes pk
  rw [unpackPk, packPk, ← hlength, List.take_left, List.drop_left, ← hseed,
    List.take_length, List.append_nil]

theorem polyvecAddNoise_spec {p e : Poly} (hp : p.Bounded 3328) (he : e.Bounded 3) :
    (polyReduce (polyAdd p e)).Bounded 1664 ∧
      ∀ i, i < N → (polyReduce (polyAdd p e)).residue i = p.residue i + e.residue i := by
  obtain ⟨haddB, hadd⟩ := polyAdd_spec hp he (by decide)
  obtain ⟨hredB, hred⟩ := polyReduce_spec (haddB.mono (by decide))
  exact ⟨hredB, fun i hi => (hred i hi).trans (hadd i hi)⟩

/-- What is packed: `A^T r + e1` and `t^T r + e2 + msg`. -/
theorem encVectors_spec {H : Sha3} {fuel : Nat} (params : MlKemParams K)
    {seed : Bytes} (hseed : seed.length = 32) {entry : Nat → Nat → Poly}
    (hentry : ∀ i j, i < K → j < K → matrixEntry H fuel seed false i j = some (entry i j))
    {pkpv : PolyVec K} {t : Nat → Nat → F} (hpk : pkpv.Transforms 1664 t)
    (message coins : Bytes) :
    ∃ b v, encVectors H fuel params message (packPk pkpv seed) coins = some (b, v) ∧
      (∀ k, k < K → (b.get k).Bounded 1664 ∧ ∀ i, i < N → (b.get k).residue i =
        ∑ j ∈ Finset.range K, negacyclic N (ringOf (entry j k))
          ((noiseVec H K coins 0 params.eta1).get j).residue i +
        ((noiseVec H K coins K 2).get k).residue i) ∧
      v.Bounded 1664 ∧ ∀ i, i < N → v.residue i =
        ∑ j ∈ Finset.range K, negacyclic N (t j)
          ((noiseVec H K coins 0 params.eta1).get j).residue i +
        (polyGetnoise H coins (UInt8.ofNat (K + K)) 2).residue i +
        (polyFrommsg message).residue i := by
  obtain ⟨hK, hK4⟩ := params_K params
  obtain ⟨transposed, htransposed⟩ := genMatrix_of_forall (H := H) (k := fuel)
    (s := seed) (t := true) (e := fun i j => entry j i)
    (fun i j hi hj => (matrixEntry_transpose H fuel seed i j).trans (hentry j i hj hi))
  have hunpack := unpackPk_packPk pkpv hseed
  have hpk' := polyvecFrombytes_transforms hpk []
  have hr := polyvecNtt_transforms (v := noiseVec H K coins 0 params.eta1)
    (fun k hk => (noiseVec_bounded _ _ _ _ hk).mono (by decide))
  have hr4096 := hr.mono (show (1664 : Int) ≤ 4096 by decide)
  refine ⟨_, _, by
    simp only [encVectors, hunpack, htransposed]
    rfl, fun k hk => ?_, ?_⟩
  · obtain ⟨hinvB, hinv⟩ := polyInvnttTomont_acc hK hK4
      (genMatrix_row htransposed (.ofFn K fun _ => .zero) hk) hr4096
    obtain ⟨hredB, hred⟩ := polyvecAddNoise_spec hinvB
      (noiseVec_bounded H coins K 2 hk)
    have hrow : ∀ j, j < K →
        (transposed.getD k (.ofFn K fun _ => .zero)).get j = entry j k := by
      intro j hj
      have hsome := genMatrix_some htransposed (.ofFn K fun _ => .zero) hk hj
      rw [matrixEntry_transpose, hentry j k hj hk, Option.some.injEq] at hsome
      exact hsome.symm
    rw [polyvecReduce, PolyVec.get_map _ _ hk, polyvecAdd, PolyVec.get_zipWith _ _ _ hk,
      polyvecInvnttTomont, PolyVec.get_map _ _ hk, PolyVec.get_ofFn _ hk]
    refine ⟨hredB, fun i hi => ?_⟩
    rw [hred i hi, hinv i hi, Finset.sum_congr rfl fun j hj => by
      rw [hrow j (Finset.mem_range.mp hj)]]
  · obtain ⟨hinvB, hinv⟩ := polyInvnttTomont_acc hK hK4 hpk' hr4096
    obtain ⟨hepp, heppv⟩ := polyAdd_spec hinvB
      (polyGetnoise_bounded H coins (UInt8.ofNat (K + K)) 2) (by decide)
    have hmsg : (polyFrommsg message).Bounded 1665 := fun i hi => by
      rw [coeff_polyFrommsg message hi]
      rcases messageBit_cases message i with h | h <;> rw [h] <;> decide
    obtain ⟨hsumB, hsum⟩ := polyAdd_spec hepp hmsg (by decide)
    obtain ⟨hredB, hred⟩ := polyReduce_spec (hsumB.mono (by decide))
    refine ⟨hredB, fun i hi => ?_⟩
    rw [hred i hi, hsum i hi, heppv i hi, hinv i hi]

/-! ## Decryption -/

/-- The noise that decryption sees on top of the message, for the vectors `b` and `v`
that encryption packs. -/
def delta (H : Sha3) (params : MlKemParams K) (keyCoins coins : Bytes) (b : PolyVec K)
    (v : Poly) : Nat → F :=
  let noiseSeed := (keySeeds H K keyCoins).2
  noiseTerm N K
    (fun k => ((noiseVec H K noiseSeed 0 params.eta1).get k).residue)
    (fun k => ((noiseVec H K noiseSeed K params.eta1).get k).residue)
    (fun k => ((noiseVec H K coins 0 params.eta1).get k).residue)
    (fun k => ((noiseVec H K coins K 2).get k).residue)
    (fun k i => ((roundU params ((b.get k).coeff i) - (b.get k).coeff i : Int) : F))
    (polyGetnoise H coins (UInt8.ofNat (K + K)) 2).residue
    (fun i => ((roundV params (v.coeff i) - v.coeff i : Int) : F))

/-- Every centered coefficient of the noise is at most 831. -/
def NoiseSmall (H : Sha3) (fuel : Nat) (params : MlKemParams K)
    (keyCoins message publicKey coins : Bytes) : Prop :=
  ∀ b v, encVectors H fuel params message publicKey coins = some (b, v) →
    ∀ i, i < N → |(delta H params keyCoins coins b v i).valMinAbs| ≤ 831

theorem indcpaDec_spec (params : MlKemParams K) {skpv : PolyVec K} {s : Nat → Nat → F}
    (hsk : skpv.Transforms 1664 s) (b : PolyVec K) (v : Poly) :
    ∃ mp : Poly, indcpaDec params (packCiphertext params b v) (packSk skpv) =
        polyTomsg mp ∧ mp.Bounded 1664 ∧ ∀ i, i < N → mp.residue i =
          (roundV params (v.coeff i) : F) - ∑ k ∈ Finset.range K, negacyclic N (s k)
            (fun j => (roundU params ((b.get k).coeff j) : F)) i := by
  obtain ⟨hK, hK4⟩ := params_K params
  have hsk' := polyvecFrombytes_transforms hsk []
  rw [List.append_nil] at hsk'
  have hU : ∀ k, k < K → ∀ i, i < N →
      ((polyvecDecompress params (polyvecCompress params b)).get k).coeff i =
        roundU params ((b.get k).coeff i) :=
    fun k hk i hi => coeff_polyvecDecompress params b hk hi
  have hUntt : (polyvecNtt (polyvecDecompress params (polyvecCompress params b))).Transforms
      1664 fun k j => (roundU params ((b.get k).coeff j) : F) := by
    intro k hk
    obtain ⟨hbound, hval⟩ := polyvecNtt_transforms (v := polyvecDecompress params
      (polyvecCompress params b)) (fun k hk i hi => by
        rw [hU k hk i hi]
        have := roundU_bounds params ((b.get k).coeff i)
        omega) k hk
    refine ⟨hbound, hval.congr fun i hi => ?_⟩
    simp only [Poly.residue, hU k hk i hi]
  obtain ⟨hinvB, hinv⟩ := polyInvnttTomont_acc hK hK4 hsk'
    (hUntt.mono (show (1664 : Int) ≤ 4096 by decide))
  have hV : (polyDecompress params (polyCompress params v)).Bounded 3329 := fun i hi => by
    rw [coeff_polyDecompress params v hi]
    exact roundV_bounds _ _
  obtain ⟨hsubB, hsub⟩ := polySub_spec hV hinvB (by decide)
  obtain ⟨hredB, hred⟩ := polyReduce_spec (hsubB.mono (by decide))
  refine ⟨_, by simp only [indcpaDec, unpackCiphertext_packCiphertext]; rfl, hredB,
    fun i hi => ?_⟩
  refine (hred i hi).trans ?_
  rw [hsub i hi, hinv i hi, Poly.residue, coeff_polyDecompress params v hi]

theorem indcpaDec_indcpaEnc {H : Sha3} {fuel : Nat} {params : MlKemParams K}
    {keyCoins pk sk : Bytes}
    (hkeys : indcpaKeypairDerand H fuel params keyCoins = some (pk, sk))
    {message : Bytes} (hmessage : message.length = 32) (coins : Bytes) :
    ∃ ciphertext, indcpaEnc H fuel params message pk coins = some ciphertext ∧
      (NoiseSmall H fuel params keyCoins message pk coins →
        indcpaDec params ciphertext sk = message) := by
  obtain ⟨entry, pkpv, skpv, hentry, rfl, rfl, hsk, hpk⟩ := indcpaKeypairDerand_spec hkeys
  obtain ⟨b, v, henc, hb, hvB, hv⟩ := encVectors_spec params (length_keySeed H K keyCoins)
    hentry hpk message coins
  refine ⟨packCiphertext params b v, by rw [indcpaEnc, henc]; rfl, fun hsmall => ?_⟩
  obtain ⟨mp, hdec, hmpB, hmp⟩ := indcpaDec_spec params hsk b v
  rw [hdec]
  refine polyTomsg_eq hmessage fun i hi => ?_
  -- What decryption sees is the message plus `delta`.
  have hseen : mp.residue i = (polyFrommsg message).residue i +
      delta H params keyCoins coins b v i := by
    rw [delta, ← decryptTerm_eq (by decide) (fun i j => ringOf (entry i j)) _ _ _ _ _ _ _ _ hi,
      decryptTerm, hmp i hi]
    refine congrArg₂ (· - ·) ?_ ?_
    · have hvi := hv i hi
      rw [Poly.residue] at hvi
      push_cast
      rw [← hvi]
      ring
    · refine Finset.sum_congr rfl fun k hk => ?_
      refine negacyclic_congr (fun _ _ => rfl) (fun j hj => ?_) hi
      have hbj := (hb k (Finset.mem_range.mp hk)).2 j hj
      rw [Poly.residue] at hbj
      push_cast
      rw [← hbj]
      ring
  have hmsg : (polyFrommsg message).residue i = ((1665 * messageBit message i : Int) : F) := by
    rw [Poly.residue, coeff_polyFrommsg message hi]
  have hd := abs_le.mp (hsmall b v henc i hi)
  refine tomsgBit_eq (messageBit_cases message i) (hmpB i hi) hd ?_
  rw [Int.cast_add, ZMod.coe_valMinAbs, ← hmsg]
  exact hseen

/-! ## Decapsulation -/

theorem cmov_true {out value : Bytes} (h : out.length = value.length) :
    cmov out value true = value := by
  have hmask : (0 : UInt8) - 1 = -1 := by decide
  refine ext_getD (by simp [cmov, h]) 0 fun i hi => ?_
  have hi' : i < value.length := by simpa [cmov, h] using hi
  simp only [cmov, if_true, hmask]
  rw [getD_zipWith _ (by rwa [h]) hi' 0 0 0, UInt8.neg_one_and, ← UInt8.xor_assoc,
    UInt8.xor_self, UInt8.zero_xor]

theorem length_indcpaKeys {H : Sha3} {fuel : Nat} {params : MlKemParams K}
    {coins pk sk : Bytes} (h : indcpaKeypairDerand H fuel params coins = some (pk, sk)) :
    pk.length = publicKeyBytes K ∧ sk.length = indcpaSecretKeyBytes K := by
  obtain ⟨_, pkpv, skpv, -, rfl, rfl, -, -⟩ := indcpaKeypairDerand_spec h
  constructor
  · rw [packPk, List.length_append, length_polyvecTobytes, length_keySeed]
    rfl
  · exact length_polyvecTobytes skpv

theorem length_squeeze (stream : Nat → UInt8) (start len : Nat) :
    (squeeze stream start len).length = len := by
  simp [squeeze]

/-- The key checks of decapsulation pass and re-encryption starts from the hash of
the decrypted message. -/
theorem cryptoKemDec_eq {H : Sha3} {fuel : Nat} {params : MlKemParams K}
    {coins : FixedBytes 64} {pk indcpaKey : Bytes}
    (hkeys : indcpaKeypairDerand H fuel params (coins.octets.take 32) =
      some (pk, indcpaKey)) (ciphertext : Bytes) :
    cryptoKemDec H fuel params
        (indcpaKey ++ pk ++ (H.hashH pk).octets ++ coins.octets.drop 32) ciphertext =
      (do
        let message := indcpaDec params ciphertext indcpaKey
        let kr := (H.hashG (message ++ (H.hashH pk).octets)).octets
        let cmp ← indcpaEnc H fuel params message pk ((kr.drop 32).take 32)
        some (.ok (cmov (rkprf H (coins.octets.drop 32) ciphertext) (kr.take 32)
          (decide (ciphertext = cmp))))) := by
  obtain ⟨hpk, hsk⟩ := length_indcpaKeys hkeys
  have hhash := (H.hashH pk).length_eq
  have hcoins : (coins.octets.drop 32).length = 32 := by
    rw [List.length_drop, coins.length_eq]
  have hsize : (indcpaKey ++ pk ++ (H.hashH pk).octets ++ coins.octets.drop 32).length =
      secretKeySize K := by
    simp only [List.length_append, hpk, hsk, hhash, hcoins, secretKeySize, SYMBYTES]
  have hslicePk : ((indcpaKey ++ pk ++ (H.hashH pk).octets ++ coins.octets.drop 32).drop
      (indcpaSecretKeyBytes K)).take (publicKeyBytes K) = pk := by
    rw [List.append_assoc, List.append_assoc, List.drop_left' hsk, List.take_left' hpk]
  have hsliceSk : (indcpaKey ++ pk ++ (H.hashH pk).octets ++ coins.octets.drop 32).take
      (indcpaSecretKeyBytes K) = indcpaKey := by
    rw [List.append_assoc, List.append_assoc, List.take_left' hsk]
  have hoffset : secretKeySize K - 64 = (indcpaKey ++ pk).length := by
    rw [List.length_append, hpk, hsk]
    simp only [secretKeySize, SYMBYTES]
    omega
  have hsliceHash : ((indcpaKey ++ pk ++ (H.hashH pk).octets ++ coins.octets.drop 32).drop
      (secretKeySize K - 64)).take 32 = (H.hashH pk).octets := by
    rw [hoffset, List.append_assoc, List.drop_left, List.take_left' hhash]
  have hoffset' : secretKeySize K - 32 =
      (indcpaKey ++ pk ++ (H.hashH pk).octets).length := by
    rw [List.length_append, hhash, ← hoffset]
    simp only [secretKeySize, SYMBYTES]
    omega
  have hsliceCoins : (indcpaKey ++ pk ++ (H.hashH pk).octets ++ coins.octets.drop 32).drop
      (secretKeySize K - 32) = coins.octets.drop 32 := by
    rw [hoffset', List.drop_left]
  simp only [cryptoKemDec, hsize, hslicePk, hsliceSk, hsliceHash, hsliceCoins, ne_eq,
    not_true_eq_false, if_false]

/-- Small noise is decrypted away: `indcpa_dec` gives the message back and
`crypto_kem_dec` the shared secret, whenever key generation has returned. -/
theorem mlKem_decrypts (H : Sha3) (params : MlKemParams K) (fuel : Nat) :
    (∀ (keyCoins message coins : FixedBytes 32) (pk sk : Bytes),
      indcpaKeypairDerand H fuel params keyCoins.octets = some (pk, sk) →
      ∃ ciphertext,
        indcpaEnc H fuel params message.octets pk coins.octets = some ciphertext ∧
        (NoiseSmall H fuel params keyCoins.octets message.octets pk coins.octets →
          indcpaDec params ciphertext sk = message.octets)) ∧
    ∀ (keyCoins : FixedBytes 64) (coins : FixedBytes 32) (sk pk : Bytes),
      cryptoKemKeypairDerand H fuel params keyCoins = some (sk, pk) →
      ∃ sharedSecret ciphertext,
        cryptoKemEncDerand H fuel params pk coins = some (sharedSecret, ciphertext) ∧
        (NoiseSmall H fuel params (keyCoins.octets.take 32) coins.octets pk
            (((H.hashG (coins.octets ++ (H.hashH pk).octets)).octets.drop 32).take 32) →
          cryptoKemDec H fuel params sk ciphertext = some (.ok sharedSecret)) := by
  refine ⟨fun keyCoins message coins pk sk hkeys =>
    indcpaDec_indcpaEnc hkeys message.length_eq coins.octets,
    fun keyCoins coins sk pk hkeys => ?_⟩
  simp only [cryptoKemKeypairDerand, Option.bind_eq_bind, Option.bind_eq_some_iff,
    Option.some.injEq, Prod.mk.injEq] at hkeys
  obtain ⟨⟨pk', indcpaKey⟩, hindcpa, rfl, hpk⟩ := hkeys
  simp only at hpk hindcpa ⊢
  subst hpk
  have hbuf : (coins.octets ++ (H.hashH pk').octets).take 32 = coins.octets :=
    List.take_left' coins.length_eq
  obtain ⟨ciphertext, henc, hdec⟩ := indcpaDec_indcpaEnc hindcpa coins.length_eq
    (((H.hashG (coins.octets ++ (H.hashH pk').octets)).octets.drop 32).take 32)
  refine ⟨_, ciphertext, by simp only [cryptoKemEncDerand, hbuf, henc]; rfl,
    fun hsmall => ?_⟩
  have hkr : ((H.hashG (coins.octets ++ (H.hashH pk').octets)).octets.take 32).length =
      32 := by
    rw [List.length_take, FixedBytes.length_eq]
    decide
  rw [cryptoKemDec_eq hindcpa, hdec hsmall]
  simp only [henc, Option.bind_eq_bind, Option.bind_some, decide_true]
  rw [cmov_true (by rw [rkprf, length_squeeze, hkr])]

/-! ## A run with little noise -/

/-- Every secret and every error is the constant polynomial 1. -/
def quietSha3 : Sha3 where
  hashH _ := .zeroed 32
  hashG _ := .zeroed 64
  shake128 _ _ := 0
  shake256 _ k := if k = 0 then 1 else 0

theorem getD_squeeze_zero (start len k : Nat) :
    (squeeze (fun _ => 0) start len).getD k 0 = 0 := by
  simp [squeeze, List.getD_eq_getElem?_getD]

theorem rejStep_zero_length (room start len : Nat) (s : RejState)
    (hroom : s.out.length < room) :
    (rejStep room (squeeze (fun _ => 0) start len) s).out.length =
      min room (s.out.length + 2) := by
  have hQ : ((0 : Nat) : Int) < Q := by decide
  simp only [rejStep, getD_squeeze_zero, UInt8.toNat_zero, Nat.zero_shiftLeft,
    Nat.zero_shiftRight, Nat.or_zero, Nat.zero_and, hQ, if_true, and_true]
  split
  · next hmore =>
    rw [List.length_append, List.length_singleton] at hmore
    simp only [List.length_append, List.length_singleton]
    omega
  · next hmore =>
    rw [List.length_append, List.length_singleton] at hmore
    simp only [List.length_append, List.length_singleton]
    omega

theorem rejUniform_zero_length (room start : Nat) {len : Nat} (hlen : len % 3 = 0) :
    (rejUniform room (squeeze (fun _ => 0) start len)).length = min room (2 * (len / 3)) := by
  have hlength : (squeeze (fun _ => 0) start len).length = len := length_squeeze _ _ _
  have hloop := whileLoop_rule
    (c := fun s : RejState =>
      decide (s.out.length < room ∧ s.pos + 3 ≤ (squeeze (fun _ => 0) start len).length))
    (f := rejStep room (squeeze (fun _ => 0) start len))
    (I := fun s => ∃ k, s.pos = 3 * k ∧ s.out.length = min room (2 * k) ∧ s.pos ≤ len)
    (k := (squeeze (fun _ => 0) start len).length + 1) (s := ⟨[], 0⟩)
    (fun s => len - s.pos)
    (by
      rintro s ⟨k, hpos, hout, hle⟩ hcond
      rw [decide_eq_true_eq, hlength] at hcond
      have hstep := rejStep_zero_length room start len s hcond.1
      have hpos' : (rejStep room (squeeze (fun _ => 0) start len) s).pos = s.pos + 3 := rfl
      exact ⟨⟨k + 1, by omega, by omega, by omega⟩, by omega⟩)
    ⟨0, rfl, by simp, Nat.zero_le _⟩ (by rw [hlength]; omega)
  obtain ⟨⟨k, hpos, hout, hle⟩, hexit⟩ := hloop
  rw [decide_eq_false_iff_not] at hexit
  rw [hlength] at hexit hpos hout hle
  rw [rejUniform, hlength]
  omega

theorem quiet_uniformPoly (seed : Bytes) (x y : UInt8) :
    ∃ p, uniformPoly quietSha3 3 seed x y = some p := by
  have hstep : ∀ s : UniformState, (uniformStep (fun _ => 0) s).coeffs.length =
      s.coeffs.length + min (N - s.coeffs.length) 112 := fun s => by
    rw [uniformStep, List.length_append, rejUniform_zero_length _ _ (by decide)]
    rfl
  have hone : (uniformStep (fun _ => 0) ⟨[], 0⟩).coeffs.length = 112 := hstep _
  have htwo := hstep (uniformStep (fun _ => 0) ⟨[], 0⟩)
  have hthree := hstep (uniformStep (fun _ => 0) (uniformStep (fun _ => 0) ⟨[], 0⟩))
  rw [hone] at htwo
  rw [htwo] at hthree
  have hfull : (whileLoop (fun s : UniformState => decide (s.coeffs.length < N))
      (uniformStep (fun _ => 0)) 3 ⟨[], 0⟩).coeffs.length = N := by
    simp only [whileLoop, hone, htwo]
    exact hthree
  have hstream : quietSha3.shake128 (seed ++ [x, y]) = fun _ => 0 := rfl
  simp only [uniformPoly, hstream, dif_pos hfull]
  exact ⟨_, rfl⟩

theorem quiet_genMatrix (K : Nat) (seed : Bytes) (transpose : Bool) :
    ∃ matrix, genMatrix quietSha3 3 K seed transpose = some matrix := by
  choose e he using fun i j => show ∃ p, matrixEntry quietSha3 3 seed transpose i j = some p by
    rw [matrixEntry]
    split
    · exact quiet_uniformPoly seed _ _
    · exact quiet_uniformPoly seed _ _
  exact genMatrix_of_forall (e := e) fun i j _ _ => he i j

def constantOne (i : Nat) : F := if i = 0 then 1 else 0

theorem quiet_noise (seed : Bytes) (nonce : UInt8) (eta : Nat) {i : Nat} (hi : i < N) :
    (polyGetnoise quietSha3 seed nonce eta).residue i = constantOne i := by
  have hoctet : ∀ k l, k < N / 8 → l < 4 →
      (squeeze (fun k => if k = 0 then 1 else 0) 0 128).getD (4 * k + l) 0 =
        if 4 * k + l = 0 then (1 : UInt8) else 0 := by
    intro k l hk hl
    have hlt : 4 * k + l < 128 := by unfold N at hk; omega
    rw [squeeze, getD_map_range _ hlt, Nat.zero_add]
  have hsplit : i = 8 * (i / 8) + i % 8 := (Nat.div_add_mod i 8).symm
  have hstream : quietSha3.shake256 (seed ++ [nonce]) = fun k => if k = 0 then 1 else 0 := rfl
  have hchunk : i / 8 < N / 8 := by unfold N at *; omega
  have hlt : i % 8 < 8 := Nat.mod_lt _ (by omega)
  rw [Poly.residue, polyGetnoise, hstream, cbd2, hsplit, Poly.coeff_ofChunks _ _ hchunk hlt]
  have hword : load32 (fun l => (squeeze (fun k => if k = 0 then 1 else 0) 0 128).getD
      (4 * (i / 8) + l) 0) = if i / 8 = 0 then 1 else 0 := by
    simp only [load32, hoctet _ _ hchunk (show 0 < 4 by decide),
      hoctet _ _ hchunk (show 1 < 4 by decide), hoctet _ _ hchunk (show 2 < 4 by decide),
      hoctet _ _ hchunk (show 3 < 4 by decide)]
    by_cases hzero : i / 8 = 0
    · simp [hzero]
    · simp [hzero]
  simp only [hword, constantOne]
  generalize i % 8 = j at hlt
  by_cases hzero : i / 8 = 0
  · simp only [hzero, if_true]
    interval_cases j <;> rfl
  · have hpos : 8 * (i / 8) + j ≠ 0 := by omega
    simp only [hzero, hpos, if_false]
    interval_cases j <;> rfl

theorem negacyclic_constantOne (b : Nat → F) {n i : Nat} (hi : i < n) :
    negacyclic n constantOne b i = b i := by
  rw [negacyclic, Finset.sum_eq_single 0]
  · simp [constantOne]
  · intro j _ hj
    simp [constantOne, hj]
  · intro hout
    exact absurd (Finset.mem_range.mpr (by omega)) hout

theorem cast_bmod (z : Int) : ((Int.bmod z 3329 : Int) : F) = z := by
  rw [ZMod.intCast_eq_intCast_iff]
  exact Int.bmod_emod

theorem valMinAbs_le {z : Int} (hz : |z| ≤ 831) : |(z : F).valMinAbs| ≤ 831 := by
  have hbound := abs_le.mp hz
  have hvalue : (z : F).valMinAbs = z :=
    (ZMod.valMinAbs_spec _ _).mpr ⟨rfl, by constructor <;> push_cast <;> omega⟩
  rwa [hvalue]

theorem round_u {c : Int} (hc : Within 1664 c) :
    |Int.bmod (roundU ML_KEM_768 c - c) 3329| ≤ 2 :=
  (decompress_compressCoeff rounds10 (by decide) (by omega)).trans
    (by norm_num [round_eq])

theorem round_v {c : Int} (hc : Within 1664 c) :
    |Int.bmod (roundV ML_KEM_768 c - c) 3329| ≤ 104 :=
  (decompress_compressCoeff rounds4 (by decide) (by omega)).trans
    (by norm_num [round_eq])

theorem quiet_noiseSmall {keyCoins pk sk : Bytes}
    (hkeys : indcpaKeypairDerand quietSha3 3 ML_KEM_768 keyCoins = some (pk, sk))
    (message coins : Bytes) :
    NoiseSmall quietSha3 3 ML_KEM_768 keyCoins message pk coins := by
  intro b v hvectors i hi
  obtain ⟨entry, pkpv, skpv, hentry, rfl, rfl, hsk, hpk⟩ := indcpaKeypairDerand_spec hkeys
  obtain ⟨b', v', henc, hbB, hvB, -⟩ := encVectors_spec ML_KEM_768
    (length_keySeed quietSha3 3 keyCoins) hentry hpk message coins
  obtain ⟨rfl, rfl⟩ := Prod.mk.inj (Option.some.inj (hvectors.symm.trans henc))
  have hnoise : ∀ seed offset eta k, k < 3 → ∀ j, j < N →
      ((noiseVec quietSha3 3 seed offset eta).get k).residue j = constantOne j := by
    intro seed offset eta k hk j hj
    rw [noiseVec_get _ _ _ _ hk, quiet_noise _ _ _ hj]
  have hproduct : ∀ seed offset eta k, k < 3 → ∀ x : Nat → F,
      negacyclic N ((noiseVec quietSha3 3 seed offset eta).get k).residue x i = x i := by
    intro seed offset eta k hk x
    rw [negacyclic_congr (hnoise seed offset eta k hk) (fun _ _ => rfl) hi,
      negacyclic_constantOne x hi]
  let c : Nat → Int := fun k => roundU ML_KEM_768 ((b.get k).coeff i) - (b.get k).coeff i
  let d : Int := roundV ML_KEM_768 (v.coeff i) - v.coeff i
  have hdelta : delta quietSha3 ML_KEM_768 keyCoins coins b v i =
      (((if i = 0 then 1 else 0) + Int.bmod d 3329 -
        (Int.bmod (c 0) 3329 + Int.bmod (c 1) 3329 + Int.bmod (c 2) 3329) : Int) : F) := by
    simp only [delta, noiseTerm, Finset.sum_range_succ, Finset.sum_range_zero, zero_add,
      hproduct _ _ _ 0 (by decide), hproduct _ _ _ 1 (by decide), hproduct _ _ _ 2 (by decide),
      hnoise _ _ _ 0 (by decide) i hi, hnoise _ _ _ 1 (by decide) i hi,
      hnoise _ _ _ 2 (by decide) i hi, quiet_noise _ _ _ hi, constantOne]
    simp only [Int.cast_add, Int.cast_sub, cast_bmod, Int.cast_ite, Int.cast_one, Int.cast_zero,
      c, d]
    ring
  rw [hdelta]
  have hd : -104 ≤ Int.bmod d 3329 ∧ Int.bmod d 3329 ≤ 104 := abs_le.mp (round_v (hvB i hi))
  have hc : ∀ k, k < 3 → -2 ≤ Int.bmod (c k) 3329 ∧ Int.bmod (c k) 3329 ≤ 2 :=
    fun k hk => abs_le.mp (round_u ((hbB k hk).1 i hi))
  have hc0 := hc 0 (by decide)
  have hc1 := hc 1 (by decide)
  have hc2 := hc 2 (by decide)
  refine valMinAbs_le (abs_le.mpr ?_)
  split <;> omega

theorem mlKem_decrypts_quiet :
    (∃ pk sk ciphertext,
      indcpaKeypairDerand quietSha3 3 ML_KEM_768 (List.replicate 32 7) = some (pk, sk) ∧
      indcpaEnc quietSha3 3 ML_KEM_768 (List.replicate 32 0x5a) pk
        (List.replicate 32 9) = some ciphertext ∧
      indcpaDec ML_KEM_768 ciphertext sk = List.replicate 32 0x5a) ∧
    ∃ sk pk sharedSecret ciphertext,
      cryptoKemKeypairDerand quietSha3 3 ML_KEM_768 ⟨List.replicate 64 7, rfl⟩ =
        some (sk, pk) ∧
      cryptoKemEncDerand quietSha3 3 ML_KEM_768 pk ⟨List.replicate 32 0x5a, rfl⟩ =
        some (sharedSecret, ciphertext) ∧
      cryptoKemDec quietSha3 3 ML_KEM_768 sk ciphertext = some (.ok sharedSecret) := by
  have hkeys : ∀ coins, ∃ pk sk,
      indcpaKeypairDerand quietSha3 3 ML_KEM_768 coins = some (pk, sk) := by
    intro coins
    obtain ⟨matrix, hmatrix⟩ := quiet_genMatrix 3 (keySeeds quietSha3 3 coins).1 false
    exact ⟨_, _, by simp only [indcpaKeypairDerand, hmatrix]; rfl⟩
  constructor
  · obtain ⟨pk, sk, hpk⟩ := hkeys (List.replicate 32 7)
    obtain ⟨ciphertext, henc, hdec⟩ := (mlKem_decrypts quietSha3 ML_KEM_768 3).1
      ⟨List.replicate 32 7, rfl⟩ ⟨List.replicate 32 0x5a, rfl⟩ ⟨List.replicate 32 9, rfl⟩
      pk sk hpk
    exact ⟨pk, sk, ciphertext, hpk, henc, hdec (quiet_noiseSmall hpk _ _)⟩
  · obtain ⟨pk, sk, hpk⟩ := hkeys ((List.replicate 64 7).take 32)
    obtain ⟨kemSk, hkem⟩ : ∃ kemSk, cryptoKemKeypairDerand quietSha3 3 ML_KEM_768
        ⟨List.replicate 64 7, rfl⟩ = some (kemSk, pk) :=
      ⟨_, by simp only [cryptoKemKeypairDerand, hpk]; rfl⟩
    obtain ⟨sharedSecret, ciphertext, henc, hdec⟩ :=
      (mlKem_decrypts quietSha3 ML_KEM_768 3).2 _ ⟨List.replicate 32 0x5a, rfl⟩ _ _ hkem
    exact ⟨_, pk, sharedSecret, ciphertext, hkem, henc,
      hdec (quiet_noiseSmall hpk _ _)⟩

end Stdx.MlKem
