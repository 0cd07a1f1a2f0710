import Stdx.Foundation.Ntt
import Mathlib.Algebra.QuadraticAlgebra.Basic
import Mathlib.RingTheory.AdjoinRoot

/-!
# Negacyclic products

The product of `R[X] / (X ^ n + 1)` on coefficient functions, its image in the
quotient ring, and what it is on the residues a transform leaves: products of
constants, or of linear polynomials modulo `X ^ 2 - modulus`.
-/

namespace Stdx.Foundation

open Finset

variable {R : Type*} [CommRing R]

def negacyclic (n : Nat) (a b : Nat → R) (i : Nat) : R :=
  ∑ j ∈ range n, if j ≤ i then a j * b (i - j) else -(a j * b (n + i - j))

theorem negacyclic_congr {n : Nat} {a a' b b' : Nat → R}
    (ha : ∀ i, i < n → a i = a' i) (hb : ∀ i, i < n → b i = b' i) {i : Nat}
    (hi : i < n) : negacyclic n a b i = negacyclic n a' b' i := by
  refine sum_congr rfl fun j hj => ?_
  have hj := mem_range.mp hj
  split
  · rw [ha j hj, hb _ (by omega)]
  · rw [ha j hj, hb _ (by omega)]

theorem map_negacyclic {S : Type*} [CommRing S] (f : R →+* S) (n : Nat) (a b : Nat → R) (i : Nat) :
    f (negacyclic n a b i) = negacyclic n (fun j => f (a j)) (fun j => f (b j)) i := by
  simp only [negacyclic, map_sum, apply_ite f, map_neg, map_mul]

theorem abs_negacyclic_le {n : Nat} {a b : Nat → Int} {bound : Int}
    (hb : ∀ i, i < n → |b i| ≤ bound) {i : Nat} (hi : i < n) :
    |negacyclic n a b i| ≤ (∑ j ∈ range n, |a j|) * bound := by
  rw [negacyclic, sum_mul]
  refine (abs_sum_le_sum_abs _ _).trans (sum_le_sum fun j hj => ?_)
  have hj := mem_range.mp hj
  split
  · rw [abs_mul]
    exact mul_le_mul_of_nonneg_left (hb _ (by omega)) (abs_nonneg _)
  · rw [abs_neg, abs_mul]
    exact mul_le_mul_of_nonneg_left (hb _ (by omega)) (abs_nonneg _)

section Evaluation

variable {A : Type*} [CommRing A] [Algebra R A] {n : Nat} {t : A}

/-- Multiplication by `X ^ j` rotates, and negates what wraps around. -/
private theorem sum_rotate (ht : t ^ n = -1) (b : Nat → R) {j : Nat} (hj : j < n) :
    ∑ i ∈ range n, (if j ≤ i then algebraMap R A (b (i - j))
        else -algebraMap R A (b (n + i - j))) * t ^ i =
      t ^ j * ∑ k ∈ range n, algebraMap R A (b k) * t ^ k := by
  have hlow : ∑ i ∈ range j, (if j ≤ i then algebraMap R A (b (i - j))
        else -algebraMap R A (b (n + i - j))) * t ^ i =
      t ^ j * ∑ i ∈ range j, algebraMap R A (b (n - j + i)) * t ^ (n - j + i) := by
    rw [mul_sum]
    refine sum_congr rfl fun i hi => ?_
    have hi := mem_range.mp hi
    have hpow : t ^ j * t ^ (n - j + i) = -t ^ i := by
      rw [← pow_add, show j + (n - j + i) = n + i by omega, pow_add, ht]
      ring
    have hidx : n + i - j = n - j + i := by omega
    rw [if_neg (by omega), hidx]
    linear_combination (-algebraMap R A (b (n - j + i))) * hpow
  have hhigh : ∑ i ∈ range (n - j), (if j ≤ j + i then
        algebraMap R A (b (j + i - j))
        else -algebraMap R A (b (n + (j + i) - j))) * t ^ (j + i) =
      t ^ j * ∑ i ∈ range (n - j), algebraMap R A (b i) * t ^ i := by
    rw [mul_sum]
    refine sum_congr rfl fun i _ => ?_
    rw [if_pos (by omega), Nat.add_sub_cancel_left, pow_add]
    ring
  have hn : range n = range (j + (n - j)) := by congr 1; omega
  have hn' : range n = range (n - j + j) := by congr 1; omega
  rw [hn, sum_range_add, hlow, hhigh, ← hn, hn', sum_range_add]
  ring

theorem blockEval_negacyclic (ht : t ^ n = -1) (a b : Nat → R) :
    blockEval t n 0 (negacyclic n a b) = blockEval t n 0 a * blockEval t n 0 b := by
  simp only [blockEval, negacyclic, Nat.zero_mul, Nat.zero_add, map_sum, sum_mul]
  rw [sum_comm]
  refine sum_congr rfl fun j hj => ?_
  rw [mul_assoc, ← sum_rotate ht b (mem_range.mp hj), mul_sum]
  refine sum_congr rfl fun i _ => ?_
  split <;> simp only [map_mul, map_neg] <;> ring

end Evaluation

/-! ## The quotient ring -/

section Quotient

open Polynomial

noncomputable def toRing (n : Nat) (x : Nat → R) : AdjoinRoot (X ^ n + 1 : R[X]) :=
  blockEval (AdjoinRoot.root (X ^ n + 1 : R[X])) n 0 x

theorem root_pow (n : Nat) : AdjoinRoot.root (X ^ n + 1 : R[X]) ^ n = -1 := by
  have h : AdjoinRoot.mk (X ^ n + 1 : R[X]) (X ^ n + 1) = 0 := AdjoinRoot.mk_self
  rw [map_add, map_pow, AdjoinRoot.mk_X, map_one] at h
  linear_combination h

theorem toRing_negacyclic (n : Nat) (a b : Nat → R) :
    toRing n (negacyclic n a b) = toRing n a * toRing n b :=
  blockEval_negacyclic (root_pow n) a b

theorem toRing_add (n : Nat) (a b : Nat → R) :
    toRing n (fun i => a i + b i) = toRing n a + toRing n b := by
  simp only [toRing, blockEval, map_add, add_mul, sum_add_distrib]

theorem toRing_congr {n : Nat} {x y : Nat → R} (h : ∀ i, i < n → x i = y i) :
    toRing n x = toRing n y :=
  blockEval_congr fun j hj => h _ (by rwa [Nat.zero_mul, Nat.zero_add])

theorem toRing_sub (n : Nat) (a b : Nat → R) :
    toRing n (fun i => a i - b i) = toRing n a - toRing n b := by
  simp only [toRing, blockEval, map_sub, sub_mul, sum_sub_distrib]

theorem toRing_sum {ι : Type*} (n : Nat) (s : Finset ι) (a : ι → Nat → R) :
    toRing n (fun i => ∑ k ∈ s, a k i) = ∑ k ∈ s, toRing n (a k) := by
  simp only [toRing, blockEval, map_sum, sum_mul]
  rw [sum_comm]

theorem toRing_inj [Nontrivial R] {n : Nat} (hn : 0 < n) {x y : Nat → R}
    (h : toRing n x = toRing n y) {i : Nat} (hi : i < n) : x i = y i := by
  have hmonic : (X ^ n + 1 : R[X]).Monic := monic_X_pow_add_C 1 hn.ne'
  have hmk : ∀ w : Nat → R, toRing n w =
      AdjoinRoot.mk (X ^ n + 1 : R[X]) (∑ j ∈ range n, C (w j) * X ^ j) := by
    intro w
    simp only [toRing, blockEval, Nat.zero_mul, Nat.zero_add, map_sum, map_mul,
      map_pow, AdjoinRoot.mk_X, AdjoinRoot.mk_C, AdjoinRoot.algebraMap_eq]
  rw [hmk, hmk, AdjoinRoot.mk_eq_mk, ← sum_sub_distrib] at h
  have hzero : ∑ j ∈ range n, (C (x j) * X ^ j - C (y j) * X ^ j) = 0 := by
    by_contra hne
    refine hmonic.not_dvd_of_degree_lt hne ?_ h
    have hdeg : (X ^ n + 1 : R[X]).degree = n := degree_X_pow_add_C hn 1
    rw [hdeg]
    refine lt_of_le_of_lt (degree_sum_le _ _) ?_
    rw [Finset.sup_lt_iff (by exact_mod_cast WithBot.bot_lt_coe n)]
    intro j hj
    rw [← sub_mul, ← map_sub]
    refine lt_of_le_of_lt (degree_C_mul_X_pow_le _ _) ?_
    exact_mod_cast mem_range.mp hj
  have hcoeff := congrArg (fun p => p.coeff i) hzero
  simp only [finsetSum_coeff, coeff_sub, coeff_C_mul, coeff_X_pow, coeff_zero] at hcoeff
  rw [sum_eq_single_of_mem i (mem_range.mpr hi)
    (fun j _ hji => by simp [Ne.symm hji])] at hcoeff
  simpa [sub_eq_zero] using hcoeff

end Quotient

/-! ## Products of residues -/

section Residues

variable {z : Nat → R} {levels : Nat}

theorem Twiddles.forward_negacyclic_linear (hz : Twiddles z levels) {h : Nat}
    (hh : h ≤ levels) (a b : Nat → R) {c : Nat} (hc : c < 2 ^ h) :
    forward z h h (negacyclic (2 ^ h) a b) c =
      forward z h h a c * forward z h h b c := by
  have ht : (modulus z h c) ^ (2 ^ (h - h)) = algebraMap R R (modulus z h c) := by
    simp
  have heval := fun x : Nat → R => hz.blockEval_forward le_rfl hh hc x _ ht
  have hconst : ∀ x : Nat → R,
      forward z h h x c = blockEval (modulus z h c) (2 ^ h) 0 x := by
    intro x
    rw [← (heval x).2]
    simp [blockEval]
  rw [hconst, hconst, hconst, blockEval_negacyclic (heval a).1]

/-- A transform down to linear residues multiplies them modulo `X ^ 2 - modulus`. -/
theorem Twiddles.forward_negacyclic_quadratic (hz : Twiddles z levels) {m : Nat}
    (hm : m ≤ levels) (a b : Nat → R) {c : Nat} (hc : c < 2 ^ m) :
    let e := forward z (m + 1) m (negacyclic (2 ^ (m + 1)) a b)
    let u := forward z (m + 1) m a
    let v := forward z (m + 1) m b
    e (c * 2) = u (c * 2) * v (c * 2) +
        modulus z m c * (u (c * 2 + 1) * v (c * 2 + 1)) ∧
      e (c * 2 + 1) = u (c * 2) * v (c * 2 + 1) + u (c * 2 + 1) * v (c * 2) := by
  intro e u v
  let t : QuadraticAlgebra R (modulus z m c) 0 := ⟨0, 1⟩
  have hsub : m + 1 - m = 1 := by omega
  have ht : t ^ (2 ^ (m + 1 - m)) =
      algebraMap R (QuadraticAlgebra R (modulus z m c) 0) (modulus z m c) := by
    rw [hsub, pow_one, pow_two]
    ext <;> simp [t]
  have heval := fun x : Nat → R => hz.blockEval_forward (Nat.le_succ m) hm hc x _ ht
  have hlinear : ∀ x : Nat → R, blockEval t (2 ^ (m + 1)) 0 x =
      ⟨forward z (m + 1) m x (c * 2), forward z (m + 1) m x (c * 2 + 1)⟩ := by
    intro x
    rw [← (heval x).2, hsub, pow_one, blockEval, sum_range_succ, sum_range_one]
    ext <;> simp [t]
  have hprod := blockEval_negacyclic (heval a).1 a b
  rw [hlinear, hlinear, hlinear] at hprod
  have hre := congrArg QuadraticAlgebra.re hprod
  have him := congrArg QuadraticAlgebra.im hprod
  simp only [QuadraticAlgebra.re_mul, QuadraticAlgebra.im_mul] at hre him
  exact ⟨by linear_combination hre, by linear_combination him⟩

end Residues

end Stdx.Foundation
