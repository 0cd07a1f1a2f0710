import Stdx.Foundation.Butterfly
import Mathlib.Algebra.BigOperators.Intervals
import Mathlib.Algebra.Algebra.Basic
import Mathlib.Tactic.LinearCombination

/-!
# Number-theoretic transforms as iterated splitting

After `m` passes a polynomial of `2 ^ h` coefficients is held as `2 ^ m` residues
of `2 ^ (h - m)` coefficients, block `c` modulo `X ^ (2 ^ (h - m)) - modulus m c`.
Evaluation at a root of a block's modulus sees the same value before and after,
which is all that multiplication needs.  The passes are Cooley-Tukey forwards and
Gentleman-Sande backwards, over one table of constants read upwards and downwards.
-/

namespace Stdx.Foundation

open Finset

variable {R : Type*} [CommRing R]

/-! ## Passes -/

def forwardPair (z : Nat → R) (base b : Nat) (u v : R) : R × R :=
  (u + z (base + b) * v, u - z (base + b) * v)

def inversePair (z : Nat → R) (top b : Nat) (u v : R) : R × R :=
  (u + v, z (top - b) * (v - u))

def forwardLayer (z : Nat → R) (h m : Nat) (x : Nat → R) : Nat → R :=
  layerFn (forwardPair z (2 ^ m)) (2 ^ (h - 1 - m)) x

def inverseLayer (z : Nat → R) (h m : Nat) (x : Nat → R) : Nat → R :=
  layerFn (inversePair z (2 ^ (m + 1) - 1)) (2 ^ (h - 1 - m)) x

def forward (z : Nat → R) (h : Nat) : Nat → (Nat → R) → Nat → R
  | 0, x => x
  | m + 1, x => forwardLayer z h m (forward z h m x)

@[grind =]
def inverse (z : Nat → R) (h top : Nat) : Nat → (Nat → R) → Nat → R
  | 0, x => x
  | count + 1, x => inverseLayer z h (top - 1 - count) (inverse z h top count x)

/-! ## The table -/

def modulus (z : Nat → R) : Nat → Nat → R
  | 0, _ => -1
  | m + 1, c => if c % 2 = 0 then z (2 ^ m + c / 2) else -z (2 ^ m + c / 2)

/-- What a table of `2 ^ levels` constants must satisfy. -/
structure Twiddles (z : Nat → R) (levels : Nat) : Prop where
  root : z 1 * z 1 = -1
  even : ∀ k, 0 < k → 2 * k < 2 ^ levels → z (2 * k) * z (2 * k) = z k
  odd : ∀ k, 0 < k → 2 * k + 1 < 2 ^ levels → z (2 * k + 1) * z (2 * k + 1) = -z k
  mirror : ∀ m b, m < levels → b < 2 ^ m →
    z (2 ^ (m + 1) - 1 - b) * z (2 ^ m + b) = -1

variable {z : Nat → R} {levels : Nat}

theorem Twiddles.modulus_sq (hz : Twiddles z levels) {m c : Nat} (hm : m < levels)
    (hc : c < 2 ^ (m + 1)) :
    modulus z (m + 1) c * modulus z (m + 1) c = modulus z m (c / 2) := by
  have hsq : modulus z (m + 1) c * modulus z (m + 1) c =
      z (2 ^ m + c / 2) * z (2 ^ m + c / 2) := by
    simp only [modulus]
    split <;> ring
  rw [hsq]
  have hpow : 2 ^ (m + 1) ≤ 2 ^ levels := Nat.pow_le_pow_right (by decide) hm
  cases m with
  | zero =>
    have : c / 2 = 0 := by omega
    simpa [modulus, this] using hz.root
  | succ m =>
    have hdouble : 2 ^ (m + 1) = 2 * 2 ^ m := by ring
    have hdouble' : 2 ^ (m + 1 + 1) = 2 * (2 * 2 ^ m) := by ring
    have hpos : 0 < 2 ^ m := by positivity
    rcases Nat.mod_two_eq_zero_or_one (c / 2) with hpar | hpar
    · have hidx : 2 ^ (m + 1) + c / 2 = 2 * (2 ^ m + c / 2 / 2) := by omega
      rw [hidx, hz.even _ (by omega) (by omega), modulus, if_pos hpar]
    · have hidx : 2 ^ (m + 1) + c / 2 = 2 * (2 ^ m + c / 2 / 2) + 1 := by omega
      rw [hidx, hz.odd _ (by omega) (by omega), modulus, if_neg (by omega)]

/-! ## Evaluation -/

section Evaluation

variable {A : Type*} [CommRing A] [Algebra R A]

def blockEval (t : A) (len c : Nat) (x : Nat → R) : A :=
  ∑ j ∈ range len, algebraMap R A (x (c * len + j)) * t ^ j

theorem blockEval_congr {t : A} {len c : Nat} {x y : Nat → R}
    (h : ∀ j, j < len → x (c * len + j) = y (c * len + j)) :
    blockEval t len c x = blockEval t len c y :=
  sum_congr rfl fun j hj => by rw [h j (mem_range.mp hj)]

theorem blockEval_double (t : A) (len c : Nat) (x : Nat → R) :
    blockEval t (2 * len) c x =
      ∑ j ∈ range len, (algebraMap R A (x (c * (2 * len) + j)) +
        algebraMap R A (x (c * (2 * len) + len + j)) * t ^ len) * t ^ j := by
  rw [blockEval, two_mul, sum_range_add, ← sum_add_distrib]
  refine sum_congr rfl fun j _ => ?_
  rw [pow_add, Nat.add_assoc (c * _) len j]
  ring

theorem blockEval_forwardLayer (z : Nat → R) {h m c : Nat} (x : Nat → R) (t : A)
    (ht : t ^ (2 ^ (h - 1 - m)) = algebraMap R A (modulus z (m + 1) c)) :
    blockEval t (2 ^ (h - 1 - m)) c (forwardLayer z h m x) =
      blockEval t (2 * 2 ^ (h - 1 - m)) (c / 2) x := by
  rw [blockEval_double, blockEval]
  refine sum_congr rfl fun j hj => ?_
  have hj := mem_range.mp hj
  generalize hlen : 2 ^ (h - 1 - m) = len at *
  congr 1
  rcases Nat.mod_two_eq_zero_or_one c with hpar | hpar
  · have hidx : c * len + j = c / 2 * (2 * len) + j := by
      have : c = 2 * (c / 2) := by omega
      nth_rewrite 1 [this]
      ring
    rw [hidx, forwardLayer, hlen, layerFn_lower _ _ _ hj, ht, modulus, if_pos hpar]
    simp only [forwardPair, map_add, map_mul]
    ring
  · have hidx : c * len + j = c / 2 * (2 * len) + len + j := by
      have : c = 2 * (c / 2) + 1 := by omega
      nth_rewrite 1 [this]
      ring
    rw [hidx, forwardLayer, hlen, layerFn_upper _ _ _ hj, ht, modulus,
      if_neg (by omega)]
    simp only [forwardPair, map_sub, map_mul, map_neg]
    ring

theorem Twiddles.blockEval_forward (hz : Twiddles z levels) {h m c : Nat}
    (hh : m ≤ h) (hm : m ≤ levels) (hc : c < 2 ^ m) (x : Nat → R) (t : A)
    (ht : t ^ (2 ^ (h - m)) = algebraMap R A (modulus z m c)) :
    t ^ (2 ^ h) = -1 ∧
      blockEval t (2 ^ (h - m)) c (forward z h m x) = blockEval t (2 ^ h) 0 x := by
  induction m generalizing c with
  | zero =>
    have hc0 : c = 0 := by simpa using hc
    refine ⟨by simpa [modulus] using ht, ?_⟩
    rw [hc0, Nat.sub_zero, forward]
  | succ m ih =>
    have hsub : h - (m + 1) = h - 1 - m := by omega
    have hlen : 2 ^ (h - m) = 2 * 2 ^ (h - 1 - m) := by
      rw [← pow_succ']
      congr 1
      omega
    rw [hsub] at ht
    have hup : t ^ (2 ^ (h - m)) = algebraMap R A (modulus z m (c / 2)) := by
      rw [hlen, two_mul, pow_add, ht, ← map_mul, hz.modulus_sq hm hc]
    have hc2 : c / 2 < 2 ^ m := by
      rw [pow_succ] at hc
      omega
    obtain ⟨hneg, hrest⟩ := ih (by omega) (by omega) hc2 hup
    refine ⟨hneg, ?_⟩
    rw [hsub, forward, blockEval_forwardLayer z _ t ht, ← hlen, hrest]

end Evaluation

/-! ## Passes undo each other -/

theorem Twiddles.inverseLayer_forwardLayer (hz : Twiddles z levels) {h m : Nat}
    (hh : m < h) (hm : m < levels) (x : Nat → R) {i : Nat} (hi : i < 2 ^ h) :
    inverseLayer z h m (forwardLayer z h m x) i = 2 * x i := by
  rw [blocks_fill hh] at hi
  have hlen : 0 < 2 ^ (h - 1 - m) := by positivity
  obtain ⟨b, j, hj, rfl | rfl⟩ := block_cases hlen i
  all_goals have hb : b < 2 ^ m := block_lt hi (by omega)
  · rw [inverseLayer, layerFn_lower _ _ _ hj, forwardLayer,
      layerFn_lower _ _ _ hj, layerFn_upper _ _ _ hj]
    simp only [inversePair, forwardPair]
    ring
  · have hmirror := hz.mirror m b hm hb
    rw [inverseLayer, layerFn_upper _ _ _ hj, forwardLayer,
      layerFn_lower _ _ _ hj, layerFn_upper _ _ _ hj]
    simp only [inversePair, forwardPair]
    linear_combination
      (-2 * x (b * (2 * 2 ^ (h - 1 - m)) + 2 ^ (h - 1 - m) + j)) * hmirror

theorem Twiddles.forwardLayer_inverseLayer (hz : Twiddles z levels) {h m : Nat}
    (hh : m < h) (hm : m < levels) (x : Nat → R) {i : Nat} (hi : i < 2 ^ h) :
    forwardLayer z h m (inverseLayer z h m x) i = 2 * x i := by
  rw [blocks_fill hh] at hi
  have hlen : 0 < 2 ^ (h - 1 - m) := by positivity
  obtain ⟨b, j, hj, rfl | rfl⟩ := block_cases hlen i
  all_goals
    have hb : b < 2 ^ m := block_lt hi (by omega)
    have hmirror := hz.mirror m b hm hb
    generalize hu : x (b * (2 * 2 ^ (h - 1 - m)) + j) = u
    generalize hv : x (b * (2 * 2 ^ (h - 1 - m)) + 2 ^ (h - 1 - m) + j) = v
  · rw [forwardLayer, layerFn_lower _ _ _ hj, inverseLayer,
      layerFn_lower _ _ _ hj, layerFn_upper _ _ _ hj, hu, hv]
    simp only [inversePair, forwardPair]
    linear_combination (v - u) * hmirror
  · rw [forwardLayer, layerFn_upper _ _ _ hj, inverseLayer,
      layerFn_lower _ _ _ hj, layerFn_upper _ _ _ hj, hu, hv]
    simp only [inversePair, forwardPair]
    linear_combination (u - v) * hmirror

/-! ## Congruence and scaling -/

theorem forwardLayer_congr {h m : Nat} (hm : m < h) {x y : Nat → R}
    (hxy : ∀ i, i < 2 ^ h → x i = y i) {i : Nat} (hi : i < 2 ^ h) :
    forwardLayer z h m x i = forwardLayer z h m y i := by
  rw [blocks_fill hm] at hi hxy
  exact layerFn_congr (by positivity) (fun _ _ => rfl) hxy hi

theorem inverseLayer_congr {h m : Nat} (hm : m < h) {x y : Nat → R}
    (hxy : ∀ i, i < 2 ^ h → x i = y i) {i : Nat} (hi : i < 2 ^ h) :
    inverseLayer z h m x i = inverseLayer z h m y i := by
  rw [blocks_fill hm] at hi hxy
  exact layerFn_congr (by positivity) (fun _ _ => rfl) hxy hi

theorem forwardLayer_smul (z : Nat → R) (h m : Nat) (a : R) (x : Nat → R) :
    forwardLayer z h m (fun i => a * x i) = fun i => a * forwardLayer z h m x i := by
  funext i
  simp only [forwardLayer, layerFn, forwardPair]
  split <;> ring

theorem inverseLayer_smul (z : Nat → R) (h m : Nat) (a : R) (x : Nat → R) :
    inverseLayer z h m (fun i => a * x i) = fun i => a * inverseLayer z h m x i := by
  funext i
  simp only [inverseLayer, layerFn, inversePair]
  split <;> ring

theorem forwardLayer_add (z : Nat → R) (h m : Nat) (x y : Nat → R) :
    forwardLayer z h m (fun i => x i + y i) =
      fun i => forwardLayer z h m x i + forwardLayer z h m y i := by
  funext i
  simp only [forwardLayer, layerFn, forwardPair]
  split <;> ring

theorem forward_congr {h m : Nat} (hm : m ≤ h) {x y : Nat → R}
    (hxy : ∀ i, i < 2 ^ h → x i = y i) {i : Nat} (hi : i < 2 ^ h) :
    forward z h m x i = forward z h m y i := by
  induction m generalizing i with
  | zero => exact hxy i hi
  | succ m ih => exact forwardLayer_congr hm (fun i hi => ih (by omega) hi) hi

theorem forward_smul (z : Nat → R) (h m : Nat) (a : R) (x : Nat → R) :
    forward z h m (fun i => a * x i) = fun i => a * forward z h m x i := by
  induction m with
  | zero => rfl
  | succ m ih => rw [forward, forward, ih, forwardLayer_smul]

theorem forward_add (z : Nat → R) (h m : Nat) (x y : Nat → R) :
    forward z h m (fun i => x i + y i) =
      fun i => forward z h m x i + forward z h m y i := by
  induction m with
  | zero => rfl
  | succ m ih => rw [forward, forward, forward, ih, forwardLayer_add]

theorem forward_sub (z : Nat → R) (h m : Nat) (x y : Nat → R) :
    forward z h m (fun i => x i - y i) =
      fun i => forward z h m x i - forward z h m y i := by
  have hneg := forward_smul z h m (-1) y
  have hadd := forward_add z h m x fun i => -1 * y i
  rw [hneg] at hadd
  simpa only [neg_one_mul, ← sub_eq_add_neg] using hadd

theorem forward_sum (z : Nat → R) (h m K : Nat) (x : Nat → Nat → R) :
    forward z h m (fun i => ∑ k ∈ range K, x k i) =
      fun i => ∑ k ∈ range K, forward z h m (x k) i := by
  induction K with
  | zero => simpa using forward_smul z h m 0 fun _ => 0
  | succ K ih =>
    simp only [sum_range_succ]
    rw [forward_add, ih]

theorem inverse_congr {h top count : Nat} (htop : top ≤ h) (hcount : count ≤ top)
    {x y : Nat → R} (hxy : ∀ i, i < 2 ^ h → x i = y i) {i : Nat} (hi : i < 2 ^ h) :
    inverse z h top count x i = inverse z h top count y i := by
  induction count generalizing i with
  | zero => exact hxy i hi
  | succ count ih =>
    exact inverseLayer_congr (by omega) (fun i hi => ih (by omega) hi) hi

theorem inverse_smul (z : Nat → R) (h top count : Nat) (a : R) (x : Nat → R) :
    inverse z h top count (fun i => a * x i) =
      fun i => a * inverse z h top count x i := by
  induction count with
  | zero => rfl
  | succ count ih => rw [inverse, inverse, ih, inverseLayer_smul]

/-! ## The whole transform -/

theorem Twiddles.inverse_forward_count (hz : Twiddles z levels) {h top count : Nat}
    (hh : top ≤ h) (htop : top ≤ levels) (hcount : count ≤ top) (x : Nat → R)
    {i : Nat} (hi : i < 2 ^ h) :
    inverse z h top count (forward z h top x) i =
      2 ^ count * forward z h (top - count) x i := by
  induction count generalizing i with
  | zero => simp [inverse]
  | succ count ih =>
    have hlevel : top - count = top - 1 - count + 1 := by omega
    have hnext : top - (count + 1) = top - 1 - count := by omega
    rw [inverse, inverseLayer_congr (by omega) (fun i hi => ih (by omega) hi) hi,
      inverseLayer_smul, hlevel, forward]
    beta_reduce
    rw [hz.inverseLayer_forwardLayer (by omega) (by omega) _ hi, hnext]
    ring

theorem Twiddles.inverse_forward (hz : Twiddles z levels) {h top : Nat}
    (hh : top ≤ h) (htop : top ≤ levels) (x : Nat → R) {i : Nat} (hi : i < 2 ^ h) :
    inverse z h top top (forward z h top x) i = 2 ^ top * x i := by
  rw [hz.inverse_forward_count hh htop le_rfl x hi, Nat.sub_self, forward]

theorem Twiddles.forward_inverse_count (hz : Twiddles z levels) {h top m : Nat}
    (hh : top ≤ h) (htop : top ≤ levels) (hm : m ≤ top) (x : Nat → R)
    {i : Nat} (hi : i < 2 ^ h) :
    forward z h m (inverse z h top top x) i =
      2 ^ m * inverse z h top (top - m) x i := by
  induction m generalizing i with
  | zero => simp [forward]
  | succ m ih =>
    have hcount : top - m = top - (m + 1) + 1 := by omega
    have hlevel : top - 1 - (top - (m + 1)) = m := by omega
    rw [forward, forwardLayer_congr (by omega) (fun i hi => ih (by omega) hi) hi,
      forwardLayer_smul, hcount, inverse, hlevel]
    beta_reduce
    rw [hz.forwardLayer_inverseLayer (by omega) (by omega) _ hi]
    ring

theorem Twiddles.forward_inverse (hz : Twiddles z levels) {h top : Nat}
    (hh : top ≤ h) (htop : top ≤ levels) (x : Nat → R) {i : Nat} (hi : i < 2 ^ h) :
    forward z h top (inverse z h top top x) i = 2 ^ top * x i := by
  rw [hz.forward_inverse_count hh htop le_rfl x hi, Nat.sub_self, inverse]

end Stdx.Foundation
