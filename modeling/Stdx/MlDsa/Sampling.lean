import Stdx.MlDsa.Rounding
import Stdx.MlDsa.Scheme

/-!
# What the samplers return

Matrix entries are reduced, secret coefficients are at most `eta` and a challenge has
at most `tau` coefficients, all of them signs, so that the product of a challenge with
a secret is at most `tau * eta`.  More fuel than a call needed does not change it.
-/

namespace Stdx.MlDsa

open Stdx.Foundation
open Finset (range sum_congr sum_range_succ)

variable {H : Shake} {d : Domain}

theorem PolyIn.forall_coeff {P : Nat → Prop} {p : PolyIn d} (h : ∀ c ∈ p.coeffs, P c) {i : Nat}
    (hi : i < N) : P (p.coeff i) := by
  rw [← p.length_eq] at hi
  rw [PolyIn.coeff, List.getD_eq_getElem _ _ hi]
  exact h _ (List.getElem_mem hi)

theorem sampled_eq_some {s : SampleState} {p : PolyIn d} :
    sampled d s = some p ↔ p.coeffs = s.coeffs := by
  unfold sampled
  constructor
  · intro h
    split at h
    · rw [← Option.some.inj h]
    · cases h
  · intro h
    rw [dif_pos (h ▸ p.length_eq)]
    congr 1
    exact PolyIn.ext_coeffs h.symm

theorem sampled_loop {step : SampleState → SampleState} {fuel fuel' : Nat} {p : PolyIn d}
    (h : sampled d (whileLoop (fun s => decide (s.coeffs.length < N)) step fuel ⟨[], 0⟩) = some p)
    (hle : fuel ≤ fuel') :
    sampled d (whileLoop (fun s => decide (s.coeffs.length < N)) step fuel' ⟨[], 0⟩) = some p := by
  have hlength := p.length_eq
  rw [sampled_eq_some.mp h] at hlength
  rwa [whileLoop_of_le (by simp [hlength]) hle]

theorem sampled_forall {P : Nat → Prop} {step : SampleState → SampleState} {fuel : Nat}
    {p : PolyIn d} (hstep : ∀ s, (∀ c ∈ s.coeffs, P c) → ∀ c ∈ (step s).coeffs, P c)
    (h : sampled d (whileLoop (fun s => decide (s.coeffs.length < N)) step fuel ⟨[], 0⟩) = some p)
    {i : Nat} (hi : i < N) : P (p.coeff i) := by
  have hall := whileLoop_preserves (c := fun s : SampleState => decide (s.coeffs.length < N))
    (P := fun s => ∀ c ∈ s.coeffs, P c) hstep fuel (s := ⟨[], 0⟩) (by simp)
  rw [← sampled_eq_some.mp h] at hall
  exact PolyIn.forall_coeff hall hi

/-! ## The matrix -/

theorem sampleNttStep_lt (stream : Nat → UInt8) (s : SampleState)
    (h : ∀ c ∈ s.coeffs, c < Q) : ∀ c ∈ (sampleNttStep stream s).coeffs, c < Q := by
  intro c hc
  simp only [sampleNttStep] at hc
  split at hc
  · next hlt =>
    rcases List.mem_append.mp hc with hc | hc
    · exact h c hc
    · rw [List.mem_singleton.mp hc]
      exact (fieldToMontgomery_spec hlt).1
  · exact h c hc

theorem sampleNtt_reduced {fuel : Nat} {rho : Bytes} {s r : UInt8} {p : NttPoly}
    (h : sampleNtt H fuel rho s r = some p) : p.Reduced :=
  fun _ hi => sampled_forall (sampleNttStep_lt _) h hi

theorem computeMatrixA_reduced {fuel K L : Nat} {rho : Bytes} {matrix : List (List NttPoly)}
    (h : computeMatrixA H fuel K L rho = some matrix) {i j : Nat} (hi : i < K) (hj : j < L) :
    ((matrix.getD i []).getD j (.zero _)).Reduced :=
  sampleNtt_reduced ((forCollect_some ((forCollect_some h []).2 i hi) (.zero _)).2 j hj)

theorem computeMatrixA_of_le {fuel fuel' K L : Nat} {rho : Bytes} {matrix : List (List NttPoly)}
    (h : computeMatrixA H fuel K L rho = some matrix) (hle : fuel ≤ fuel') :
    computeMatrixA H fuel' K L rho = some matrix :=
  forCollect_mono (fun _ _ => forCollect_mono fun _ _ h => sampled_loop h hle) h

/-! ## Secrets -/

/-- `c` stands for an integer of absolute value at most `eta`. -/
def Small (eta c : Nat) : Prop := c < Q ∧ ∃ e : Int, e.natAbs ≤ eta ∧ value c = e

theorem fieldSubToMontgomery_small {eta b : Nat} (heta : eta ≤ 4) (hb : b ≤ 2 * eta) :
    Small eta (fieldSubToMontgomery eta b) := by
  obtain ⟨hlt, hvalue⟩ := fieldSubToMontgomery_spec (a := eta) (b := b)
    (lt_of_le_of_lt heta (by decide)) (hb.trans (by rw [Q]; omega)) (by rw [Q]; omega)
  refine ⟨hlt, eta - b, by omega, ?_⟩
  rw [hvalue]
  push_cast
  rfl

theorem coeffFromHalfByte_small {b eta c : Nat} (h : coeffFromHalfByte b eta = some c) :
    Small eta c := by
  unfold coeffFromHalfByte at h
  split at h
  · split at h
    · cases h
    · rw [← Option.some.inj h]
      exact fieldSubToMontgomery_small (by decide) (by omega)
  · split at h
    · cases h
    · rw [← Option.some.inj h]
      exact fieldSubToMontgomery_small (by decide) (by omega)
  · cases h

theorem pushCoeff_forall {P : Nat → Prop} {coeffs : List Nat} {c : Option Nat}
    (h : ∀ x ∈ coeffs, P x) (hc : ∀ x, c = some x → P x) : ∀ x ∈ pushCoeff coeffs c, P x := by
  intro x hx
  unfold pushCoeff at hx
  split at hx
  · split at hx
    · rcases List.mem_append.mp hx with hx | hx
      · exact h x hx
      · rw [List.mem_singleton.mp hx]
        exact hc _ rfl
    · exact h x hx
  · exact h x hx

theorem sampleBoundedPoly_small {fuel eta : Nat} {rho : Bytes} {r : UInt8} {p : Poly}
    (h : sampleBoundedPoly H fuel rho r eta = some p) {i : Nat} (hi : i < N) :
    Small eta (p.coeff i) :=
  sampled_forall (fun _ hs => pushCoeff_forall
    (pushCoeff_forall hs fun _ => coeffFromHalfByte_small) fun _ => coeffFromHalfByte_small) h hi

/-! ## Challenges -/

def sign (c : Nat) : Int := if c = ONE then 1 else if c = MINUS_ONE then -1 else 0

theorem value_ONE : value ONE = 1 := by rfl

theorem value_MINUS_ONE : value MINUS_ONE = -1 := by rfl

/-- At most `count` coefficients are nonzero, and these are signs. -/
structure Sparse (coeffs : List Nat) (count : Nat) : Prop where
  length_eq : coeffs.length = N
  signs : ∀ c ∈ coeffs, c = 0 ∨ c = ONE ∨ c = MINUS_ONE
  count_le : coeffs.countP (· ≠ 0) ≤ count

theorem Sparse.ballStep {coeffs : List Nat} {count signs i j : Nat} (h : Sparse coeffs count)
    (hi : i < N) (hj : j < N) : Sparse (ballStep coeffs signs i j) (count + 1) := by
  have hi' := h.length_eq ▸ hi
  have hj' := h.length_eq ▸ hj
  have hmoved : coeffs.getD j 0 ∈ coeffs := by
    rw [List.getD_eq_getElem _ _ hj']
    exact List.getElem_mem hj'
  have hsign : (if signs &&& 1 = 0 then ONE else MINUS_ONE) = ONE ∨
      (if signs &&& 1 = 0 then ONE else MINUS_ONE) = MINUS_ONE := by
    split
    · exact .inl rfl
    · exact .inr rfl
  refine ⟨by rw [MlDsa.ballStep, List.length_set, List.length_set, h.length_eq], ?_, ?_⟩
  · intro c hc
    rcases List.mem_or_eq_of_mem_set hc with hc | rfl
    · rcases List.mem_or_eq_of_mem_set hc with hc | rfl
      · exact h.signs c hc
      · exact h.signs _ hmoved
    · exact .inr hsign
  · have hjset : j < (coeffs.set i (coeffs.getD j 0)).length := by rwa [List.length_set]
    have hkeeps : (coeffs.set i (coeffs.getD j 0))[j] = coeffs.getD j 0 := by
      rw [List.getElem_set]
      split
      · rfl
      · exact (List.getD_eq_getElem _ _ hj').symm
    rw [MlDsa.ballStep, List.countP_set hjset, hkeeps, List.countP_set hi']
    have hcount := h.count_le
    have hone (b : Bool) : (if b = true then 1 else 0) ≤ 1 := by
      split
      · exact le_rfl
      · exact Nat.zero_le 1
    have hplaced := hone (decide ((if signs &&& 1 = 0 then ONE else MINUS_ONE) ≠ 0))
    rw [Nat.add_sub_cancel]
    omega

theorem nextIndex_le {stream : Nat → UInt8} {i fuel pos j pos' : Nat}
    (h : nextIndex stream i fuel pos = some (j, pos')) : j ≤ i := by
  induction fuel generalizing pos with
  | zero => cases h
  | succ fuel ih =>
    rw [nextIndex] at h
    split at h
    · next hle =>
      cases h
      exact hle
    · exact ih h

theorem nextIndex_of_le {stream : Nat → UInt8} {i fuel fuel' pos : Nat} {x : Nat × Nat}
    (h : nextIndex stream i fuel pos = some x) (hle : fuel ≤ fuel') :
    nextIndex stream i fuel' pos = some x := by
  induction fuel generalizing fuel' pos with
  | zero => cases h
  | succ fuel ih =>
    cases fuel' with
    | zero => omega
    | succ fuel' =>
      rw [nextIndex] at h ⊢
      split
      · next hcond => rwa [if_pos hcond] at h
      · next hcond =>
        rw [if_neg hcond] at h
        exact ih h (by omega)

theorem ballLoop_sparse {stream : Nat → UInt8} {fuel remaining count : Nat} {s : BallState}
    {out : List Nat} (hremaining : remaining ≤ N) (hs : Sparse s.coeffs count)
    (h : ballLoop stream fuel remaining s = some out) : Sparse out (count + remaining) := by
  induction remaining generalizing s count with
  | zero =>
    rw [← Option.some.inj h]
    exact hs
  | succ remaining ih =>
    simp only [ballLoop, Option.bind_eq_bind, Option.bind_eq_some_iff] at h
    obtain ⟨⟨j, pos⟩, hj, h⟩ := h
    have hi : N - (remaining + 1) < N := by omega
    have hnext := ih (by omega) (hs.ballStep hi ((nextIndex_le hj).trans_lt hi)) h
    rwa [Nat.add_assoc, Nat.add_comm 1] at hnext

theorem ballLoop_of_le {stream : Nat → UInt8} {fuel fuel' remaining : Nat} {s : BallState}
    {out : List Nat} (h : ballLoop stream fuel remaining s = some out) (hle : fuel ≤ fuel') :
    ballLoop stream fuel' remaining s = some out := by
  induction remaining generalizing s with
  | zero => exact h
  | succ remaining ih =>
    simp only [ballLoop, Option.bind_eq_bind, Option.bind_eq_some_iff] at h ⊢
    obtain ⟨x, hx, h⟩ := h
    exact ⟨x, nextIndex_of_le hx hle, ih h⟩

theorem sampleInBall_sparse {fuel tau : Nat} {rho : Bytes} {c : Poly} (htau : tau ≤ N)
    (h : sampleInBall H fuel rho tau = some c) : Sparse c.coeffs tau := by
  simp only [sampleInBall, Option.bind_eq_bind, Option.bind_eq_some_iff] at h
  obtain ⟨coeffs, hloop, h⟩ := h
  have hstart : Sparse (List.replicate N 0) 0 := by
    refine ⟨List.length_replicate, fun c hc => .inl (List.eq_of_mem_replicate hc), ?_⟩
    rw [List.countP_replicate, if_neg (by decide)]
  split at h
  · rw [← Option.some.inj h]
    have hsparse := ballLoop_sparse htau hstart hloop
    rwa [Nat.zero_add] at hsparse
  · cases h

theorem sampleInBall_of_le {fuel fuel' tau : Nat} {rho : Bytes} {c : Poly}
    (h : sampleInBall H fuel rho tau = some c) (hle : fuel ≤ fuel') :
    sampleInBall H fuel' rho tau = some c := by
  simp only [sampleInBall, Option.bind_eq_bind, Option.bind_eq_some_iff] at h ⊢
  obtain ⟨coeffs, hloop, h⟩ := h
  exact ⟨coeffs, ballLoop_of_le hloop hle, h⟩

/-! ## A challenge times a secret -/

theorem abs_sign_le (c : Nat) : |sign c| ≤ 1 := by
  unfold sign
  split
  · decide
  · split <;> decide

theorem sum_abs_sign_le (coeffs : List Nat) :
    ∑ j ∈ range coeffs.length, |sign (coeffs.getD j 0)| ≤ coeffs.countP (· ≠ 0) := by
  induction coeffs with
  | nil => rfl
  | cons c coeffs ih =>
    rw [List.length_cons, Finset.sum_range_succ', List.countP_cons]
    simp only [List.getD_cons_succ, List.getD_cons_zero]
    push_cast
    refine add_le_add ih ?_
    by_cases hc : c = 0
    · subst hc
      decide
    · rw [if_pos (by simpa using hc)]
      exact abs_sign_le c

theorem Sparse.values {c : Poly} {count : Nat} (h : Sparse c.coeffs count) {i : Nat} (hi : i < N) :
    c.values i = (sign (c.coeff i) : Int) := by
  rcases PolyIn.forall_coeff h.signs hi with hc | hc | hc
  · rw [PolyIn.values, hc]
    rfl
  · rw [PolyIn.values, hc, value_ONE]
    rfl
  · rw [PolyIn.values, hc, value_MINUS_ONE]
    rfl

theorem Sparse.reduced {c : Poly} {count : Nat} (h : Sparse c.coeffs count) : c.Reduced := by
  intro i hi
  rcases PolyIn.forall_coeff h.signs hi with hc | hc | hc
  · rw [hc]
    decide
  · rw [hc]
    decide
  · rw [hc]
    decide

theorem negacyclic_small {c s : Poly} {tau eta : Nat} (hc : Sparse c.coeffs tau)
    (hs : ∀ i < N, Small eta (s.coeff i)) {i : Nat} (hi : i < N) :
    ∃ e : Int, e.natAbs ≤ tau * eta ∧ negacyclic N c.values s.values i = e := by
  choose! e he hvalue using fun i hi => (hs i hi).2
  refine ⟨negacyclic N (fun j => sign (c.coeff j)) e i, ?_, ?_⟩
  · have he' : ∀ i < N, |e i| ≤ (eta : Int) := by
      intro i hi
      rw [Int.abs_eq_natAbs]
      exact_mod_cast he i hi
    have hbound := abs_negacyclic_le (a := fun j => sign (c.coeff j)) he' hi
    have hsum := sum_abs_sign_le c.coeffs
    rw [c.length_eq] at hsum
    have hcount : (∑ j ∈ range N, |sign (c.coeff j)|) ≤ (tau : Int) :=
      hsum.trans (by exact_mod_cast hc.count_le)
    have hle := hbound.trans (mul_le_mul_of_nonneg_right hcount (by positivity))
    rw [Int.abs_eq_natAbs] at hle
    exact_mod_cast hle
  · have hmap := map_negacyclic (Int.castRingHom F) N (fun j => sign (c.coeff j)) e i
    simp only [eq_intCast] at hmap
    rw [hmap]
    exact negacyclic_congr (fun j hj => hc.values hj) (fun j hj => hvalue j hj) hi

end Stdx.MlDsa
