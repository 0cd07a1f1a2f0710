import Stdx.MlKem.Scheme
import Stdx.MlKem.Transform

/-!
# Encodings and samplers of ML-KEM

What the unpackers give back of what the packers wrote, and the ranges of every
coefficient that enters the ring: from noise, from the matrix and from octets.
-/

namespace Stdx.MlKem

open Stdx.Foundation

variable {K : Nat}

/-! ## Slices -/

theorem getD_take {α : Type*} (l : List α) {n i : Nat} (hi : i < n) (d : α) :
    (l.take n).getD i d = l.getD i d := by
  simp [List.getD_eq_getElem?_getD, hi]

theorem getD_drop {α : Type*} (l : List α) (n i : Nat) (d : α) :
    (l.drop n).getD i d = l.getD (n + i) d := by
  simp [List.getD_eq_getElem?_getD]

theorem length_packPoly {m w d : Nat} (P : Packing m w d) (f : Int → Nat) (poly : Poly) :
    (packPoly P f poly).length = w * (N / m) :=
  P.length_packAll _ _

/-! ## Twelve-bit coefficients -/

theorem addQ_eq {c : Int} (hc : Within 3328 c) :
    addQ c = if c < 0 then c + 3329 else c := by
  rw [addQ, Int.shiftRight_eq_div_pow, Q]
  split <;> split <;> omega

theorem asU64_addQ {c : Int} (hc : Within 3328 c) :
    (asU64 (addQ c) : Int) = addQ c ∧ asU64 (addQ c) < 3329 := by
  have h := addQ_eq hc
  have hrange : 0 ≤ addQ c ∧ addQ c < 3329 := by
    rw [h]
    split <;> omega
  rw [asU64]
  omega

theorem cast_addQ {c : Int} (hc : Within 3328 c) : (addQ c : F) = c := by
  rw [addQ_eq hc]
  split
  · exact cast_of_sub_dvd (k := 1) (by omega)
  · rfl

theorem coeff_polyFrombytes {p : Poly} (hp : p.Bounded 3328) {input : Bytes}
    (hinput : ∀ i, i < POLY_BYTES → input.getD i 0 = (polyTobytes p).getD i 0) {i : Nat}
    (hi : i < N) : (polyFrombytes input).coeff i = addQ (p.coeff i) := by
  have hmask : ∀ t : Nat, ((t % 2 ^ 12 &&& 0xfff : Nat) : Int) = (t &&& 0xfff : Nat) := by
    intro t
    rw [show (0xfff : Nat) = 2 ^ 12 - 1 by rfl, Nat.and_two_pow_sub_one_eq_mod,
      Nat.and_two_pow_sub_one_eq_mod, Nat.mod_mod]
  have hvalue := coeff_unpackPoly (P := packing12) (by decide)
    (f := fun c => asU64 (addQ c)) (g := fun t => ((t &&& 0xfff : Nat) : Int)) hmask
    (fun i hi => lt_trans (asU64_addQ (hp i hi)).2 (by decide)) hinput hi
  rw [polyFrombytes, hvalue]
  obtain ⟨hcast, hlt⟩ := asU64_addQ (hp i hi)
  rw [show (0xfff : Nat) = 2 ^ 12 - 1 by rfl, Nat.and_two_pow_sub_one_eq_mod,
    Nat.mod_eq_of_lt (by omega), hcast]

theorem polyvecFrombytes_spec {v : PolyVec K} (hv : ∀ k, k < K → (v.get k).Bounded 3328)
    (rest : Bytes) {k : Nat} (hk : k < K) :
    ((polyvecFrombytes K (polyvecTobytes v ++ rest)).get k).Bounded 4096 ∧
      ∀ i, i < N → ((polyvecFrombytes K (polyvecTobytes v ++ rest)).get k).residue i =
        (v.get k).residue i := by
  have hlength : ∀ j, j < K → (polyTobytes (v.get j)).length = POLY_BYTES :=
    fun _ _ => length_packPoly _ _ _
  have hinput : ∀ i, i < POLY_BYTES →
      (((polyvecTobytes v ++ rest).drop (k * POLY_BYTES)).take POLY_BYTES).getD i 0 =
        (polyTobytes (v.get k)).getD i 0 := by
    intro i hi
    have hend : POLY_BYTES * (k + 1) ≤ POLY_BYTES * K := Nat.mul_le_mul_left _ hk
    rw [Nat.mul_add] at hend
    rw [getD_take _ hi, getD_drop, Nat.mul_comm k, polyvecTobytes,
      List.getD_append _ _ _ _ (by rw [length_ofChunks hlength]; omega),
      getD_ofChunks hlength hk hi]
  have hcoeff := fun i (hi : i < N) => coeff_polyFrombytes (hv k hk) hinput hi
  rw [polyvecFrombytes, PolyVec.get_ofFn _ hk]
  refine ⟨fun i hi => ?_, fun i hi => ?_⟩
  · have h := asU64_addQ (hv k hk i hi)
    rw [hcoeff i hi]
    omega
  · rw [Poly.residue, hcoeff i hi, cast_addQ (hv k hk i hi)]
    rfl

theorem length_polyvecTobytes (v : PolyVec K) :
    (polyvecTobytes v).length = polyvecBytes K := by
  rw [polyvecTobytes, length_ofChunks (m := POLY_BYTES) fun _ _ => length_packPoly _ _ _,
    polyvecBytes, Nat.mul_comm]

/-! ## Compressed coefficients -/

def roundU (params : MlKemParams K) (c : Int) : Int :=
  match params.polyveccompressedbytes with
  | 960 => decompressCoeff 10 (compress10 c)
  | 1408 => decompressCoeff 11 (compress11 c)
  | _ => 0

def roundV (params : MlKemParams K) (c : Int) : Int :=
  match params.polycompressedbytes with
  | 128 => decompressCoeff 4 (compress4 c)
  | 160 => decompressCoeff 5 (compress5 c)
  | _ => 0

theorem roundU_bounds (params : MlKemParams K) (c : Int) :
    Within 3329 (roundU params c) := by
  have h10 := decompressCoeff_range (d := 10) (by decide) (compress10 c)
  have h11 := decompressCoeff_range (d := 11) (by decide) (compress11 c)
  rcases params.polyvec_eq with ⟨h, -⟩ | ⟨h, -⟩ <;> simp only [roundU, h] <;> omega

theorem roundV_bounds (params : MlKemParams K) (c : Int) :
    Within 3329 (roundV params c) := by
  have h4 := decompressCoeff_range (d := 4) (by decide) (compress4 c)
  have h5 := decompressCoeff_range (d := 5) (by decide) (compress5 c)
  rcases params.poly_eq with h | h <;> simp only [roundV, h] <;> omega

theorem length_polyvecCompress (params : MlKemParams K) (a : PolyVec K) :
    (polyvecCompress params a).length = params.polyveccompressedbytes := by
  rcases params.polyvec_eq with ⟨h, rfl⟩ | ⟨h, rfl⟩
  · simp only [polyvecCompress, h]
    rw [length_ofChunks (m := 320) fun _ _ => length_packPoly _ _ _]
  · simp only [polyvecCompress, h]
    rw [length_ofChunks (m := 352) fun _ _ => length_packPoly _ _ _]

theorem length_polyCompress (params : MlKemParams K) (poly : Poly) :
    (polyCompress params poly).length = params.polycompressedbytes := by
  rcases params.poly_eq with h | h
  · simp only [polyCompress, h]
    exact length_packPoly _ _ _
  · simp only [polyCompress, h]
    exact length_packPoly _ _ _

theorem coeff_polyDecompress (params : MlKemParams K) (poly : Poly) {i : Nat}
    (hi : i < N) :
    (polyDecompress params (polyCompress params poly)).coeff i =
      roundV params (poly.coeff i) := by
  rcases params.poly_eq with h | h
  · simp only [polyDecompress, polyCompress, roundV, h]
    exact coeff_unpackPoly (P := packing4) (by decide) (decompressCoeff_mod 4)
      (fun _ _ => compressCoeff_lt _ _ _ _ _) (fun _ _ => rfl) hi
  · simp only [polyDecompress, polyCompress, roundV, h]
    exact coeff_unpackPoly (P := packing5) (by decide) (decompressCoeff_mod 5)
      (fun _ _ => compressCoeff_lt _ _ _ _ _) (fun _ _ => rfl) hi

theorem coeff_polyvecDecompress (params : MlKemParams K) (a : PolyVec K) {k i : Nat}
    (hk : k < K) (hi : i < N) :
    ((polyvecDecompress params (polyvecCompress params a)).get k).coeff i =
      roundU params ((a.get k).coeff i) := by
  rcases params.polyvec_eq with ⟨h, -⟩ | ⟨h, -⟩
  · simp only [polyvecDecompress, polyvecCompress, roundU, h]
    rw [PolyVec.get_ofFn _ hk]
    exact coeff_unpackPoly (P := packing10) (by decide) (decompressCoeff_mod 10)
      (fun _ _ => compressCoeff_lt _ _ _ _ _)
      (fun j hj => getD_ofChunks (m := 320) (fun _ _ => length_packPoly _ _ _) hk hj 0) hi
  · simp only [polyvecDecompress, polyvecCompress, roundU, h]
    rw [PolyVec.get_ofFn _ hk]
    exact coeff_unpackPoly (P := packing11) (by decide) (decompressCoeff_mod 11)
      (fun _ _ => compressCoeff_lt _ _ _ _ _)
      (fun j hj => getD_ofChunks (m := 352) (fun _ _ => length_packPoly _ _ _) hk hj 0) hi

theorem unpackCiphertext_packCiphertext (params : MlKemParams K) (b : PolyVec K)
    (v : Poly) :
    unpackCiphertext params (packCiphertext params b v) =
      (polyvecDecompress params (polyvecCompress params b),
       polyDecompress params (polyCompress params v)) := by
  have hb := length_polyvecCompress params b
  have hv := length_polyCompress params v
  rw [unpackCiphertext, packCiphertext, ← hb, List.take_left, List.drop_left, ← hv,
    List.take_length]

/-! ## Sampled polynomials -/

theorem polyGetnoise_bounded (H : Sha3) (seed : Bytes) (nonce : UInt8) (eta : Nat) :
    (polyGetnoise H seed nonce eta).Bounded 3 := by
  intro k hk
  refine forall_chunk (m := 8) (n := N / 8)
    (P := fun k => Within 3 ((polyGetnoise H seed nonce eta).coeff k)) (by decide)
    (fun i j hi hj => ?_) (show k < 8 * (N / 8) from hk)
  rw [polyGetnoise, cbd2, Poly.coeff_ofChunks _ _ hi hj, getD_map_range _ hj]
  have hand : ∀ n : Nat, ((n &&& 0x3 : Nat) : Int) = ((n % 4 : Nat) : Int) := fun n => by
    rw [show (0x3 : Nat) = 2 ^ 2 - 1 by rfl, Nat.and_two_pow_sub_one_eq_mod]
  simp only [hand]
  omega

theorem noiseVec_get (H : Sha3) (seed : Bytes) (offset eta : Nat) {k : Nat} (hk : k < K) :
    (noiseVec H K seed offset eta).get k =
      polyGetnoise H seed (UInt8.ofNat (offset + k)) eta :=
  PolyVec.get_ofFn _ hk

theorem rejUniform_range (room : Nat) (buf : Bytes) :
    ∀ x ∈ rejUniform room buf, 0 ≤ x ∧ x < Q := by
  refine whileLoop_preserves (P := fun s : RejState => ∀ x ∈ s.out, 0 ≤ x ∧ x < Q)
    (fun s hs x hx => ?_) _ (fun x hx => by simp at hx)
  have happend : ∀ {l : List Int} {v : Nat}, (∀ x ∈ l, 0 ≤ x ∧ x < Q) → (v : Int) < Q →
      ∀ x ∈ l ++ [(v : Int)], 0 ≤ x ∧ x < Q := by
    intro l v hl hv x hx
    rcases List.mem_append.mp hx with h | h
    · exact hl x h
    · rw [List.mem_singleton.mp h]
      exact ⟨Int.natCast_nonneg v, hv⟩
  simp only [rejStep] at hx
  -- Whether each of the two candidates is kept.
  split at hx
  · next hval0 =>
    split at hx
    · next hval1 => exact happend (happend hs hval0) hval1.2 x hx
    · exact happend hs hval0 x hx
  · split at hx
    · next hval1 => exact happend hs hval1.2 x hx
    · exact hs x hx

theorem uniformPoly_bounded {H : Sha3} {fuel : Nat} {seed : Bytes} {x y : UInt8}
    {p : Poly} (h : uniformPoly H fuel seed x y = some p) : p.Bounded 4096 := by
  have hrange := whileLoop_preserves
    (P := fun s : UniformState => ∀ x ∈ s.coeffs, 0 ≤ x ∧ x < Q)
    (c := fun s => decide (s.coeffs.length < N))
    (f := uniformStep (H.shake128 (seed ++ [x, y])))
    (fun s hs x hx => by
      rcases List.mem_append.mp hx with h | h
      · exact hs x h
      · exact rejUniform_range _ _ x h)
    fuel (s := ⟨[], 0⟩) (fun x hx => by simp at hx)
  simp only [uniformPoly, Option.dite_none_right_eq_some, Option.some.injEq] at h
  obtain ⟨hlength, rfl⟩ := h
  intro i hi
  have hlt : i < (whileLoop (fun s => decide (s.coeffs.length < N))
      (uniformStep (H.shake128 (seed ++ [x, y]))) fuel ⟨[], 0⟩).coeffs.length := by
    rwa [hlength]
  have hmem := hrange _ (List.getElem_mem hlt)
  rw [Poly.coeff, List.getD_eq_getElem _ _ hlt]
  simp only [Q] at hmem
  omega

/-- Entry `(i, j)` of the matrix, as `gen_matrix` samples it. -/
def matrixEntry (H : Sha3) (fuel : Nat) (seed : Bytes) (transpose : Bool) (i j : Nat) :
    Option Poly :=
  if transpose then uniformPoly H fuel seed (UInt8.ofNat i) (UInt8.ofNat j)
  else uniformPoly H fuel seed (UInt8.ofNat j) (UInt8.ofNat i)

theorem matrixEntry_transpose (H : Sha3) (fuel : Nat) (seed : Bytes) (i j : Nat) :
    matrixEntry H fuel seed true i j = matrixEntry H fuel seed false j i := by
  simp only [matrixEntry, if_true, Bool.false_eq_true, if_false]

theorem genMatrix_some {H : Sha3} {fuel : Nat} {seed : Bytes} {transpose : Bool}
    {matrix : List (PolyVec K)} (h : genMatrix H fuel K seed transpose = some matrix)
    (d : PolyVec K) {i j : Nat} (hi : i < K) (hj : j < K) :
    matrixEntry H fuel seed transpose i j = some ((matrix.getD i d).get j) := by
  obtain ⟨-, hrows⟩ := forCollect_some h d
  have hrow := hrows i hi
  simp only [Option.bind_eq_bind, Option.bind_eq_some_iff, Option.some.injEq] at hrow
  obtain ⟨row, hcollect, hrow⟩ := hrow
  rw [← hrow, PolyVec.get_ofFn _ hj]
  exact (forCollect_some hcollect .zero).2 j hj

theorem genMatrix_of_forall {H : Sha3} {k : Nat} {s : Bytes} {t : Bool}
    {e : Nat → Nat → Poly}
    (h : ∀ i j, i < K → j < K → matrixEntry H k s t i j = some (e i j)) :
    ∃ matrix, genMatrix H k K s t = some matrix := by
  refine ⟨(List.range K).map fun i =>
    .ofFn K fun j => ((List.range K).map (e i)).getD j .zero,
    forCollect_of_forall fun i hi => ?_⟩
  have hrow := forCollect_of_forall (fun j hj => h i j hi hj)
  unfold matrixEntry at hrow
  rw [hrow]
  rfl

end Stdx.MlKem
