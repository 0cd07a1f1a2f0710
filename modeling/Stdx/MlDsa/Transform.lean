import Stdx.Foundation.Exhaustive
import Stdx.MlDsa.Ring
import Stdx.Foundation.Negacyclic
import Mathlib.Data.ZMod.Basic

/-!
# The field and the transforms of ML-DSA

A field element below `q` stands for its Montgomery value.  Every operation keeps
elements below `q` and is the operation of `ZMod 8380417` on values, so the
transforms are exact and no factor is left over.
-/

namespace Stdx.MlDsa

open Stdx.Foundation

abbrev F := ZMod 8380417

instance one_lt_modulus : Fact (1 < 8380417) := ⟨by decide⟩

/-! ## Field elements -/

def montInv : F := 8265825

theorem montInv_mul : (4294967296 : F) * montInv = 1 := by rfl

def value (a : Nat) : F := montInv * a

theorem fieldReduceOnce_eq {x : Nat} (hx : x < 2 * Q) :
    fieldReduceOnce x = if x < Q then x else x - Q := by
  have hones : Q &&& (2 ^ 32 - 1) = Q := by decide
  rcases Nat.lt_or_ge x Q with h | h
  · have hsub : wrappingSub x Q = x + 2 ^ 32 - Q := by
      simp only [wrappingSub, Q] at *
      omega
    have hmask : signMask (x + 2 ^ 32 - Q) = 2 ^ 32 - 1 :=
      if_neg (by simp only [Q] at *; omega)
    rw [fieldReduceOnce, hsub, hmask, hones, if_pos h, wrappingAdd]
    simp only [Q] at *
    omega
  · have hsub : wrappingSub x Q = x - Q := by
      simp only [wrappingSub, Q] at *
      omega
    have hmask : signMask (x - Q) = 0 := if_pos (by simp only [Q] at *; omega)
    rw [fieldReduceOnce, hsub, hmask, Nat.and_zero, if_neg (by omega), wrappingAdd]
    simp only [Q] at *
    omega

theorem cast_reduce {x : Nat} : ((if x < Q then x else x - Q : Nat) : F) = (x : F) := by
  split
  · rfl
  · next h =>
    rw [Nat.cast_sub (by omega)]
    have : ((Q : Nat) : F) = 0 := by decide
    rw [this, sub_zero]

theorem fieldReduceOnce_spec {x : Nat} (hx : x < 2 * Q) :
    fieldReduceOnce x < Q ∧ (fieldReduceOnce x : F) = x := by
  rw [fieldReduceOnce_eq hx]
  refine ⟨?_, cast_reduce⟩
  split <;> omega

theorem fieldMontgomeryReduce_spec {x : Nat} (hx : x ≤ 2 ^ 32 * Q) :
    fieldMontgomeryReduce x < Q ∧ (fieldMontgomeryReduce x : F) = montInv * x := by
  simp only [fieldMontgomeryReduce]
  generalize ht : x % 2 ^ 32 * QINV % 2 ^ 32 = t
  have htlt : t < 2 ^ 32 := by rw [← ht]; exact Nat.mod_lt _ (by decide)
  -- `QINV` is minus the inverse of `Q` modulo `2 ^ 32`, so the shift is exact.
  obtain ⟨u, hu⟩ : ∃ u, x + t * Q = u * 2 ^ 32 := by
    have hmod : (x + t * Q) % 2 ^ 32 = 0 := by
      rw [← ht]
      simp only [QINV, Q]
      omega
    exact ⟨(x + t * Q) / 2 ^ 32, by omega⟩
  have hshift : (x + t * Q) >>> 32 = u := by
    rw [hu, Nat.shiftRight_eq_div_pow, Nat.mul_div_cancel _ (by decide)]
  have hult : u < 2 * Q := by
    have : t * Q ≤ (2 ^ 32 - 1) * Q := Nat.mul_le_mul_right _ (by omega)
    simp only [Q] at *
    omega
  rw [hshift, Nat.mod_eq_of_lt (by simp only [Q] at hult; omega)]
  obtain ⟨hlt, hcast⟩ := fieldReduceOnce_spec hult
  refine ⟨hlt, ?_⟩
  have hval := congrArg (fun n : Nat => (n : F)) hu
  have hQ : ((Q : Nat) : F) = 0 := by decide
  have hmont := montInv_mul
  push_cast [hQ] at hval
  rw [hcast]
  linear_combination (-(u : F)) * hmont - montInv * hval

theorem fieldMontgomeryMul_spec {a b : Nat} (hab : a * b ≤ 2 ^ 32 * Q) :
    fieldMontgomeryMul a b < Q ∧ value (fieldMontgomeryMul a b) = value a * value b := by
  obtain ⟨hlt, hcast⟩ := fieldMontgomeryReduce_spec hab
  refine ⟨hlt, ?_⟩
  rw [value, fieldMontgomeryMul, hcast, value, value]
  push_cast
  ring

theorem mul_le_of_lt {a b : Nat} (ha : a < Q) (hb : b < Q) : a * b ≤ 2 ^ 32 * Q :=
  Nat.mul_le_mul (by simp only [Q] at ha; omega) hb.le

theorem fieldAdd_spec {a b : Nat} (ha : a < Q) (hb : b < Q) :
    fieldAdd a b < Q ∧ value (fieldAdd a b) = value a + value b := by
  have hwrap : wrappingAdd a b = a + b := by
    rw [wrappingAdd, Nat.mod_eq_of_lt]
    simp only [Q] at ha hb
    omega
  obtain ⟨hlt, hcast⟩ := fieldReduceOnce_spec (x := a + b) (by omega)
  rw [fieldAdd, hwrap]
  refine ⟨hlt, ?_⟩
  rw [value, hcast, value, value]
  push_cast
  ring

theorem wrappingSub_add_Q {a b : Nat} (ha : a < 2 ^ 31) (hb : b ≤ a + Q) :
    wrappingAdd (wrappingSub a b) Q = a + Q - b := by
  simp only [wrappingAdd, wrappingSub, Q] at *
  omega

theorem fieldSub_spec {a b : Nat} (ha : a < Q) (hb : b < Q) :
    fieldSub a b < Q ∧ value (fieldSub a b) = value a - value b := by
  have hwrap := wrappingSub_add_Q (a := a) (b := b) (by simp only [Q] at ha; omega)
    (by omega)
  obtain ⟨hlt, hcast⟩ := fieldReduceOnce_spec (x := a + Q - b) (by omega)
  rw [fieldSub, hwrap]
  refine ⟨hlt, ?_⟩
  have hQ : ((Q : Nat) : F) = 0 := by decide
  rw [value, hcast, value, value, Nat.cast_sub (by omega), Nat.cast_add, hQ]
  ring

theorem value_RR : montInv * montInv * (RR : F) = 1 := by rfl

theorem fieldToMontgomery_spec {a : Nat} (ha : a < Q) :
    fieldToMontgomery a < Q ∧ value (fieldToMontgomery a) = a := by
  obtain ⟨hlt, hcast⟩ := fieldMontgomeryMul_spec
    (mul_le_of_lt ha (show RR < Q by decide))
  refine ⟨hlt, ?_⟩
  have hRR := value_RR
  rw [fieldToMontgomery, hcast, value, value]
  linear_combination (a : F) * hRR

theorem fieldSubToMontgomery_spec {a b : Nat} (ha : a < 2 * Q) (hb : b ≤ a + Q)
    (hab : a ≤ b + Q) :
    fieldSubToMontgomery a b < Q ∧ value (fieldSubToMontgomery a b) = (a : F) - b := by
  have hwrap := wrappingSub_add_Q (a := a) (b := b) (by simp only [Q] at ha; omega) hb
  have hprod : (a + Q - b) * RR ≤ 2 ^ 32 * Q := by
    refine Nat.mul_le_mul ?_ (by decide)
    simp only [Q] at *
    omega
  obtain ⟨hlt, hcast⟩ := fieldMontgomeryMul_spec hprod
  rw [fieldSubToMontgomery, hwrap]
  refine ⟨hlt, ?_⟩
  have hRR := value_RR
  have hQ : ((Q : Nat) : F) = 0 := by decide
  rw [hcast, value, value, Nat.cast_sub hb, Nat.cast_add, hQ]
  linear_combination ((a : F) - b) * hRR

theorem fieldFromMontgomery_spec {a : Nat} (ha : a < Q) :
    fieldFromMontgomery a < Q ∧ (fieldFromMontgomery a : F) = value a :=
  fieldMontgomeryReduce_spec (by simp only [Q] at *; omega)

theorem cast_inj {a b : Nat} (ha : a < Q) (hb : b < Q) (h : (a : F) = b) : a = b := by
  have := (ZMod.natCast_eq_natCast_iff' a b 8380417).mp h
  simp only [Q] at ha hb
  rwa [Nat.mod_eq_of_lt ha, Nat.mod_eq_of_lt hb] at this

theorem value_inj {a b : Nat} (ha : a < Q) (hb : b < Q) (h : value a = value b) :
    a = b := by
  refine cast_inj ha hb ?_
  have hmont := montInv_mul
  rw [value, value] at h
  linear_combination 4294967296 * h + ((b : F) - a) * hmont

/-! ## The table -/

def twiddle (m : Nat) : F := value (zeta m)

theorem twiddle_eq (m : Nat) : twiddle m = ((8265825 * zeta m : Nat) : F) := by
  rw [twiddle, value, Nat.cast_mul]
  rfl

theorem twiddle_mul_add {a b c : Nat}
    (h : (8265825 * zeta a * (8265825 * zeta b) + c) % 8380417 = 0) :
    twiddle a * twiddle b + (c : F) = 0 := by
  rw [twiddle_eq, twiddle_eq, ← Nat.cast_mul, ← Nat.cast_add, ZMod.natCast_eq_zero_iff]
  exact Nat.dvd_of_mod_eq_zero h

theorem zetas_lt : ∀ x ∈ ZETAS, x < Q := by
  have hall : ZETAS.all (fun x => Nat.blt x Q) = true := by decide +kernel
  exact fun x hx => Nat.blt_eq.mp (List.all_eq_true.mp hall x hx)

def packedZetas : Nat := Nat.ofDigits (2 ^ 23) ZETAS

def packedZeta (k : Nat) : Nat := packedZetas / (2 ^ 23) ^ k % 2 ^ 23

theorem zeta_eq_packed (k : Nat) : zeta k = packedZeta k :=
  (ofDigits_lookup (fun x hx => (zetas_lt x hx).trans (by decide)) (by decide) k).symm

theorem table_entries : (∀ x ∈ ZETAS, x < Q) ∧
    (∀ k, k < 128 → 0 < k → twiddle (2 * k) * twiddle (2 * k) = twiddle k) ∧
    (∀ k, k < 128 → 0 < k → twiddle (2 * k + 1) * twiddle (2 * k + 1) = -twiddle k) ∧
    (∀ m, m < 8 → ∀ b, b < 2 ^ m →
      twiddle (2 ^ (m + 1) - 1 - b) * twiddle (2 ^ m + b) = -1) := by
  have heven : ∀ k < 128, 0 < k →
      (8265825 * packedZeta (2 * k) * (8265825 * packedZeta (2 * k)) +
        8380416 * (8265825 * packedZeta k)) % 8380417 = 0 :=
    forall_lt_of_check (by decide +kernel)
  have hodd : ∀ k < 128, 0 < k →
      (8265825 * packedZeta (2 * k + 1) * (8265825 * packedZeta (2 * k + 1)) +
        8265825 * packedZeta k) % 8380417 = 0 :=
    forall_lt_of_check (by decide +kernel)
  have hmirror : ∀ m < 8, ∀ b < 2 ^ m, (8265825 * packedZeta (2 ^ (m + 1) - 1 - b) *
      (8265825 * packedZeta (2 ^ m + b)) + 1) % 8380417 = 0 :=
    forall_lt_of_check (by decide +kernel)
  simp only [← zeta_eq_packed] at heven hodd hmirror
  refine ⟨zetas_lt, fun k hk hpos => ?_, fun k hk hpos => ?_, fun m hm b hb => ?_⟩
  · have hsum := twiddle_mul_add (heven k hk hpos)
    have hone : ((8380416 : Nat) : F) = -1 := by rfl
    rw [Nat.cast_mul, hone, ← twiddle_eq] at hsum
    linear_combination hsum
  · have hsum := twiddle_mul_add (hodd k hk hpos)
    rw [← twiddle_eq] at hsum
    exact eq_neg_of_add_eq_zero_left hsum
  · have hsum := twiddle_mul_add (hmirror m hm b hb)
    rw [Nat.cast_one] at hsum
    exact eq_neg_of_add_eq_zero_left hsum

theorem zeta_lt (m : Nat) : zeta m < Q := by
  rcases Nat.lt_or_ge m ZETAS.length with h | h
  · rw [zeta, List.getD_eq_getElem _ _ h]
    exact table_entries.1 _ (List.getElem_mem h)
  · rw [zeta, List.getD_eq_default _ _ h]
    decide

theorem twiddles : Twiddles twiddle 8 where
  root := by rfl
  even := fun k hpos hlt => table_entries.2.1 k (by omega) hpos
  odd := fun k hpos hlt => table_entries.2.2.1 k (by omega) hpos
  mirror := fun m b hm hb => table_entries.2.2.2 m hm b hb

/-! ## Passes -/

theorem butterflyPairs_eq (bf : Nat → Nat → Nat × Nat) {len : Nat} (hlen : len % 2 = 0)
    (start : Nat) (r : List Nat) :
    butterflyPairs bf len start r = butterflies bf len start r := by
  rw [butterflyPairs, forRange_pairs (butterfly bf len), butterflies,
    show 2 * (len / 2) = len by omega]

theorem butterflies4_eq (bf : Nat → Nat → Nat × Nat) (start : Nat) (r : List Nat) :
    butterflies4 bf start r = butterflies bf 4 start r := rfl

theorem butterflies2_eq (bf : Nat → Nat → Nat × Nat) (start : Nat) (r : List Nat) :
    butterflies2 bf start r = butterflies bf 2 start r := rfl

theorem butterflies1_eq (bf : Nat → Nat → Nat × Nat) (start : Nat) (r : List Nat) :
    butterflies1 bf start r = butterflies bf 1 start r := rfl

theorem nttButterfly_spec (m : Nat) {u v : Nat} (hu : u < Q) (hv : v < Q) :
    let out := nttButterfly (zeta m) u v
    (out.1 < Q ∧ value out.1 = value u + twiddle m * value v) ∧
      out.2 < Q ∧ value out.2 = value u - twiddle m * value v := by
  obtain ⟨htlt, ht⟩ := fieldMontgomeryMul_spec (mul_le_of_lt (zeta_lt m) hv)
  obtain ⟨halt, ha⟩ := fieldAdd_spec hu htlt
  obtain ⟨hslt, hs⟩ := fieldSub_spec hu htlt
  simp only [nttButterfly]
  rw [ha, hs, ht]
  exact ⟨⟨halt, rfl⟩, hslt, rfl⟩

theorem invnttButterfly_spec (m : Nat) {u v : Nat} (hu : u < Q) (hv : v < Q) :
    let out := invnttButterfly (zeta m) u v
    (out.1 < Q ∧ value out.1 = value u + value v) ∧
      out.2 < Q ∧ value out.2 = twiddle m * (value v - value u) := by
  obtain ⟨halt, ha⟩ := fieldAdd_spec hu hv
  obtain ⟨hslt, hs⟩ := fieldSub_spec hv hu
  obtain ⟨htlt, ht⟩ := fieldMontgomeryMul_spec (mul_le_of_lt (zeta_lt m) hslt)
  simp only [invnttButterfly]
  rw [ha, ht, hs]
  exact ⟨⟨halt, rfl⟩, htlt, rfl⟩

abbrev HoldsValues (x : Nat → F) (r : List Nat) : Prop := Holds N value (· < Q) x r

theorem nttPass_holds {x : Nat → F} {m w : Nat} (hm : m < 8) (hlen : w = 2 ^ (7 - m))
    {k : Nat} (hk : k + 1 = 2 ^ m) {g : Nat → Nat → List Nat → List Nat}
    (hblock : ∀ k start r,
      g k start r = butterflies (nttButterfly (zeta (k + 1))) w start r)
    {r : List Nat} (hr : HoldsValues (forward twiddle 8 m x) r) :
    (blockPass N w (fun m => m + 1) g k r).1 + 1 = 2 ^ (m + 1) ∧
      HoldsValues (forward twiddle 8 (m + 1) x)
        (blockPass N w (fun m => m + 1) g k r).2 := by
  subst hlen
  obtain ⟨hk', hr'⟩ := blockPass_holds (h := 8) hm (S := (· < Q)) (f := value)
    (o := fun m => m + 1) (w := fun k => nttButterfly (zeta (k + 1)))
    (p := forwardPair twiddle (2 ^ m)) (g := g)
    (fun k start r hr hfit => by
      rw [hblock]
      exact butterflies_spec _ (by omega)) (k := k)
    (fun b _ u v hu hv => by
      obtain ⟨⟨h1, h1v⟩, h2, h2v⟩ := nttButterfly_spec (2 ^ m + b) hu hv
      have hidx : k + b + 1 = 2 ^ m + b := by omega
      rw [iterate_succ_nat, hidx, forwardPair, h1v, h2v]
      exact ⟨h1, h2, rfl⟩) hr
  refine ⟨?_, hr'⟩
  have hN : N = 2 ^ 8 := rfl
  rw [hN, show 7 - m = 8 - 1 - m by omega, hk', iterate_succ_nat, pow_succ]
  omega

theorem invnttPass_holds {x : Nat → F} {n w : Nat} (hcount : n < 8)
    (hlen : w = 2 ^ n) {k : Nat} (hk : k + 1 = 2 ^ (8 - n))
    {g : Nat → Nat → List Nat → List Nat}
    (hblock : ∀ k start r,
      g k start r = butterflies (invnttButterfly (zeta k)) w start r)
    {r : List Nat} (hr : HoldsValues (inverse twiddle 8 8 n x) r) :
    (blockPass N w (fun m => m - 1) g k r).1 + 1 = 2 ^ (8 - (n + 1)) ∧
      HoldsValues (inverse twiddle 8 8 (n + 1) x)
        (blockPass N w (fun m => m - 1) g k r).2 := by
  subst hlen
  have hlevel : 8 - n = 8 - 1 - n + 1 := by omega
  have hlen : n = 8 - 1 - (8 - 1 - n) := by omega
  obtain ⟨hk', hr'⟩ := blockPass_holds (h := 8) (m := 8 - 1 - n) (by omega)
    (S := (· < Q)) (f := value) (o := fun m => m - 1)
    (w := fun k => invnttButterfly (zeta k))
    (p := inversePair twiddle (2 ^ (8 - 1 - n + 1) - 1)) (g := g)
    (fun k start r hr hfit => by
      rw [hblock, ← hlen]
      rw [← hlen] at hfit
      exact butterflies_spec _ (by omega)) (k := k)
    (fun b _ u v hu hv => by
      obtain ⟨⟨h1, h1v⟩, h2, h2v⟩ :=
        invnttButterfly_spec (2 ^ (8 - 1 - n + 1) - 1 - b) hu hv
      have hidx : k - b = 2 ^ (8 - 1 - n + 1) - 1 - b := by rw [← hlevel, ← hk]; omega
      rw [iterate_pred_nat, hidx, inversePair, h1v, h2v]
      exact ⟨h1, h2, rfl⟩) hr
  rw [← hlen] at hk' hr'
  have hN : N = 2 ^ 8 := rfl
  refine ⟨?_, ?_⟩
  · rw [hN, hk', iterate_pred_nat, show 8 - (n + 1) = 8 - 1 - n by omega]
    rw [hlevel, pow_succ] at hk
    omega
  · rw [inverse, inverseLayer, ← hlen]
    exact hr'

/-- The loop of `ntt_scalar` before layer `m`. -/
structure NttAt (x : Nat → F) (m : Nat) (s : LayerState) : Prop where
  layer_le : m ≤ 5
  len_eq : s.len = 2 ^ (7 - m)
  index_eq : s.m + 1 = 2 ^ m
  holds : HoldsValues (forward twiddle 8 m x) s.r

theorem NttAt.layer_lt {x : Nat → F} {m : Nat} {s : LayerState} (h : NttAt x m s)
    (hlen : 8 ≤ s.len) : m < 5 := by
  by_contra hge
  have hle := h.layer_le
  rw [h.len_eq, show m = 5 by omega] at hlen
  omega

theorem NttAt.even_len {x : Nat → F} {m : Nat} {s : LayerState} (h : NttAt x m s) :
    s.len = 2 ^ (7 - (m + 1)) * 2 := by
  have hle := h.layer_le
  rw [h.len_eq, ← pow_succ]
  congr 1
  omega

theorem NttAt.step {x : Nat → F} {m : Nat} {s : LayerState} (h : NttAt x m s)
    (hm : m < 5) : NttAt x (m + 1) (nttLayer s) := by
  have heven := h.even_len
  obtain ⟨hk', hr'⟩ := nttPass_holds (by omega) h.len_eq h.index_eq
    (g := fun k => butterflyPairs (nttButterfly (zeta (k + 1))) s.len)
    (fun k start r => butterflyPairs_eq _ (by omega) start r) h.holds
  refine ⟨hm, ?_, hk', hr'⟩
  simp only [nttLayer]
  omega

theorem NttAt.start {x : Nat → F} {f : List Nat} (hf : HoldsValues x f) :
    NttAt x 0 ⟨128, 0, f⟩ := ⟨by decide, rfl, rfl, hf⟩

theorem nttLoop_at {x : Nat → F} {f : List Nat} (hf : HoldsValues x f) :
    NttAt x 5 (whileLoop (fun s => decide (8 ≤ s.len)) nttLayer N ⟨128, 0, f⟩) := by
  obtain ⟨⟨m, hat⟩, hexit⟩ := whileLoop_rule
    (c := fun s : LayerState => decide (8 ≤ s.len)) (f := nttLayer)
    (I := fun s => ∃ m, NttAt x m s) (fun s => s.len)
    (by
      rintro s ⟨m, hat⟩ hcond
      have hge : 8 ≤ s.len := by simpa using hcond
      refine ⟨⟨m + 1, hat.step (hat.layer_lt hge)⟩, ?_⟩
      simp only [nttLayer]
      omega)
    (k := N) ⟨0, NttAt.start hf⟩ (by simp [N])
  have hm5 : m = 5 := by
    by_contra hne
    have hle := hat.layer_le
    have : 2 ^ 3 ≤ 2 ^ (7 - m) := Nat.pow_le_pow_right (by decide) (by omega)
    have := hat.len_eq
    have := of_decide_eq_false hexit
    omega
  exact hm5 ▸ hat

theorem nttCoeffs_holds {x : Nat → F} {f : List Nat} (hf : HoldsValues x f) :
    HoldsValues (forward twiddle 8 8 x) (nttCoeffs f) := by
  -- Five layers in the loop, the last three written out.
  obtain ⟨-, -, hk, hr⟩ := nttLoop_at hf
  obtain ⟨hk6, hr6⟩ := nttPass_holds (m := 5) (w := 4) (by decide) rfl hk
    (fun _ => butterflies4_eq _) hr
  obtain ⟨hk7, hr7⟩ := nttPass_holds (m := 6) (w := 2) (by decide) rfl hk6
    (fun _ => butterflies2_eq _) hr6
  exact (nttPass_holds (m := 7) (w := 1) (by decide) rfl hk7
    (fun _ => butterflies1_eq _) hr7).2

theorem value_N_INV : value N_INV * 2 ^ 8 = 1 := by rfl

/-- The loop of `invntt_scalar` after `n` of the inverse layers. -/
structure InvnttAt (x : Nat → F) (n : Nat) (s : LayerState) : Prop where
  layer_le : n ≤ 8
  len_eq : s.len = 2 ^ n
  index_eq : s.m + 1 = 2 ^ (8 - n)
  holds : HoldsValues (inverse twiddle 8 8 n x) s.r

theorem InvnttAt.layer_lt {x : Nat → F} {n : Nat} {s : LayerState} (h : InvnttAt x n s)
    (hlen : s.len < N) : n < 8 := by
  by_contra hge
  have hle := h.layer_le
  rw [h.len_eq, show n = 8 by omega] at hlen
  exact absurd hlen (by decide)

theorem InvnttAt.even_len {x : Nat → F} {n : Nat} {s : LayerState} (h : InvnttAt x n s)
    (hn : 0 < n) : s.len = 2 * 2 ^ (n - 1) := by
  rw [h.len_eq, ← pow_succ']
  congr 1
  omega

theorem InvnttAt.step {x : Nat → F} {n : Nat} {s : LayerState} (h : InvnttAt x n s)
    (hn : 0 < n) (hlt : n < 8) : InvnttAt x (n + 1) (invnttLayer s) := by
  have heven := h.even_len hn
  obtain ⟨hk', hr'⟩ := invnttPass_holds hlt h.len_eq h.index_eq
    (g := fun k => butterflyPairs (invnttButterfly (zeta k)) s.len)
    (fun k start r => butterflyPairs_eq _ (by omega) start r) h.holds
  refine ⟨hlt, ?_, hk', hr'⟩
  simp only [invnttLayer, h.len_eq]
  ring

theorem invnttLoop_holds {x : Nat → F} {m : Nat} (hm : m + 1 = 2 ^ 5) {r : List Nat}
    (hr : HoldsValues (inverse twiddle 8 8 3 x) r) :
    HoldsValues (inverse twiddle 8 8 8 x)
      (whileLoop (fun s => decide (s.len < N)) invnttLayer N ⟨8, m, r⟩).r := by
  obtain ⟨⟨n, hpos, hat⟩, hexit⟩ := whileLoop_rule
    (c := fun s : LayerState => decide (s.len < N)) (f := invnttLayer)
    (I := fun s => ∃ n, 0 < n ∧ InvnttAt x n s) (fun s => N - s.len)
    (by
      rintro s ⟨n, hpos, hat⟩ hcond
      have hlt : s.len < N := by simpa using hcond
      have hlen : 0 < s.len := by rw [hat.len_eq]; positivity
      refine ⟨⟨n + 1, by omega, hat.step hpos (hat.layer_lt hlt)⟩, ?_⟩
      simp only [invnttLayer]
      omega)
    (k := N) (s := ⟨8, m, r⟩) ⟨3, by decide, by decide, rfl, hm, hr⟩ (by simp [N])
  have hn8 : n = 8 := by
    by_contra hne
    have hle := hat.layer_le
    have hpow : 2 ^ n ≤ 2 ^ 7 := Nat.pow_le_pow_right (by decide) (by omega)
    have hlen := hat.len_eq
    have hge := of_decide_eq_false hexit
    have hN : N = 256 := rfl
    omega
  exact hn8 ▸ hat.holds

theorem invnttCoeffs_holds {x : Nat → F} {f : List Nat} (hf : HoldsValues x f) :
    HoldsValues (fun i => value N_INV * inverse twiddle 8 8 8 x i) (invnttCoeffs f) := by
  obtain ⟨hk1, hr1⟩ := invnttPass_holds (x := x) (n := 0) (w := 1) (by decide) rfl
    (k := 255) rfl (fun _ => butterflies1_eq _) hf
  obtain ⟨hk2, hr2⟩ := invnttPass_holds (n := 1) (w := 2) (by decide) rfl hk1
    (fun _ => butterflies2_eq _) hr1
  obtain ⟨hk3, hr3⟩ := invnttPass_holds (n := 2) (w := 4) (by decide) rfl hk2
    (fun _ => butterflies4_eq _) hr2
  obtain ⟨hlength, hcells⟩ := invnttLoop_holds hk3 hr3
  refine ⟨(length_invnttCoeffs f).trans hf.1, fun i hi => ?_⟩
  simp only [invnttCoeffs]
  rw [getD_map_of_lt _ (lt_of_lt_of_eq hi hlength.symm) 0 0]
  obtain ⟨hlt, hv⟩ := hcells i hi
  obtain ⟨hmlt, hm⟩ := fieldMontgomeryMul_spec (mul_le_of_lt hlt (show N_INV < Q by decide))
  refine ⟨hmlt, ?_⟩
  rw [hm, hv, mul_comm]

/-! ## Polynomials -/

section Polynomials

variable {d : Domain}

def PolyIn.Reduced (p : PolyIn d) : Prop := ∀ i, i < N → p.coeff i < Q

def PolyIn.values (p : PolyIn d) (i : Nat) : F := value (p.coeff i)

theorem PolyIn.coeff_map {e : Domain} (f : Nat → Nat) (p : PolyIn d) {i : Nat} (hi : i < N) :
    (p.map f : PolyIn e).coeff i = f (p.coeff i) :=
  getD_map_of_lt f (by rw [p.length_eq]; exact hi) 0 0

theorem PolyIn.coeff_zipWith (f : Nat → Nat → Nat) (p q : PolyIn d) {i : Nat}
    (hi : i < N) : (p.zipWith f q).coeff i = f (p.coeff i) (q.coeff i) :=
  getD_zipWith f (by rw [p.length_eq]; exact hi) (by rw [q.length_eq]; exact hi) 0 0 0

theorem PolyIn.zero_reduced : (PolyIn.zero d).Reduced := fun i hi => by
  simp [PolyIn.coeff, PolyIn.zero, List.getD_eq_getElem?_getD, hi, Q]

theorem PolyIn.zero_values {i : Nat} (hi : i < N) : (PolyIn.zero d).values i = 0 := by
  simp [PolyIn.values, PolyIn.coeff, PolyIn.zero, List.getD_eq_getElem?_getD, hi, value]

theorem PolyIn.ext_values {p q : PolyIn d} (hp : p.Reduced) (hq : q.Reduced)
    (h : ∀ i, i < N → p.values i = q.values i) {i : Nat} (hi : i < N) :
    p.coeff i = q.coeff i :=
  value_inj (hp i hi) (hq i hi) (h i hi)

theorem zipWith_spec {f : Nat → Nat → Nat} {o : F → F → F}
    (hf : ∀ {a b}, a < Q → b < Q → f a b < Q ∧ value (f a b) = o (value a) (value b))
    {a b : PolyIn d} (ha : a.Reduced) (hb : b.Reduced) :
    (a.zipWith f b).Reduced ∧
      ∀ i, i < N → (a.zipWith f b).values i = o (a.values i) (b.values i) := by
  constructor
  · intro i hi
    rw [a.coeff_zipWith _ _ hi]
    exact (hf (ha i hi) (hb i hi)).1
  · intro i hi
    rw [PolyIn.values, a.coeff_zipWith _ _ hi]
    exact (hf (ha i hi) (hb i hi)).2

theorem polyAdd_spec {a b : Poly} (ha : a.Reduced) (hb : b.Reduced) :
    (polyAdd a b).Reduced ∧
      ∀ i, i < N → (polyAdd a b).values i = a.values i + b.values i :=
  zipWith_spec fieldAdd_spec ha hb

end Polynomials

/-- `p` is reduced and holds the transform of the ring element `x`. -/
def PolyIn.IsNtt (p : NttPoly) (x : Nat → F) : Prop :=
  p.Reduced ∧ ∀ i, i < N → p.values i = forward twiddle 8 8 x i

theorem ntt_isNtt {f : Poly} (hf : f.Reduced) : (ntt f).IsNtt f.values := by
  obtain ⟨-, hcells⟩ := nttCoeffs_holds (x := f.values)
    ⟨f.length_eq, fun i hi => ⟨hf i hi, rfl⟩⟩
  refine ⟨fun i hi => ?_, fun i hi => ?_⟩
  · simpa only [PolyIn.coeff, ntt] using (hcells i hi).1
  · simpa only [PolyIn.values, PolyIn.coeff, ntt] using (hcells i hi).2

theorem PolyIn.IsNtt.congr {p : NttPoly} {x y : Nat → F} (hp : p.IsNtt x)
    (hxy : ∀ i, i < N → x i = y i) : p.IsNtt y :=
  ⟨hp.1, fun i hi => (hp.2 i hi).trans (forward_congr (h := 8) le_rfl hxy hi)⟩

theorem zero_isNtt : (PolyIn.zero .ntt).IsNtt fun _ => 0 := by
  refine ⟨PolyIn.zero_reduced, fun i hi => ?_⟩
  have hzero := congrFun (forward_smul twiddle 8 8 0 fun _ => 0) i
  simp only [zero_mul] at hzero
  rw [PolyIn.zero_values hi, hzero]

theorem nttAdd_isNtt {a b : NttPoly} {x y : Nat → F} (ha : a.IsNtt x) (hb : b.IsNtt y) :
    (nttAdd a b).IsNtt fun i => x i + y i := by
  obtain ⟨hred, hval⟩ := zipWith_spec fieldAdd_spec ha.1 hb.1
  refine ⟨hred, fun i hi => ?_⟩
  rw [nttAdd, hval i hi, ha.2 i hi, hb.2 i hi, forward_add]

theorem nttSub_isNtt {a b : NttPoly} {x y : Nat → F} (ha : a.IsNtt x) (hb : b.IsNtt y) :
    (nttSub a b).IsNtt fun i => x i - y i := by
  obtain ⟨hred, hval⟩ := zipWith_spec fieldSub_spec ha.1 hb.1
  refine ⟨hred, fun i hi => ?_⟩
  rw [nttSub, hval i hi, ha.2 i hi, hb.2 i hi, forward_sub]

theorem nttMul_isNtt {a b : NttPoly} {x y : Nat → F} (ha : a.IsNtt x) (hb : b.IsNtt y) :
    (nttMul a b).IsNtt (negacyclic N x y) := by
  obtain ⟨hred, hval⟩ := zipWith_spec (o := (· * ·))
    (fun ha hb => fieldMontgomeryMul_spec (mul_le_of_lt ha hb)) ha.1 hb.1
  refine ⟨hred, fun i hi => ?_⟩
  rw [nttMul, hval i hi, ha.2 i hi, hb.2 i hi]
  exact (twiddles.forward_negacyclic_linear le_rfl x y hi).symm

theorem invntt_spec {p : NttPoly} {x : Nat → F} (hp : p.IsNtt x) :
    (invntt p).Reduced ∧ ∀ i, i < N → (invntt p).values i = x i := by
  obtain ⟨-, hcells⟩ := invnttCoeffs_holds (x := p.values)
    ⟨p.length_eq, fun i hi => ⟨hp.1 i hi, rfl⟩⟩
  refine ⟨fun i hi => ?_, fun i hi => ?_⟩
  · simpa only [PolyIn.coeff, invntt] using (hcells i hi).1
  · have hundo : inverse twiddle 8 8 8 p.values i = 2 ^ 8 * x i := by
      rw [inverse_congr (h := 8) le_rfl le_rfl hp.2 hi]
      exact twiddles.inverse_forward le_rfl le_rfl x hi
    have hone := value_N_INV
    have hcell := (hcells i hi).2
    beta_reduce at hcell
    rw [hundo] at hcell
    have hvalue : (invntt p).values i = value N_INV * (2 ^ 8 * x i) := by
      simpa only [PolyIn.values, PolyIn.coeff, invntt] using hcell
    rw [hvalue]
    linear_combination x i * hone

def ringOf (p : NttPoly) (i : Nat) : F :=
  value N_INV * inverse twiddle 8 8 8 p.values i

theorem isNtt_ringOf {p : NttPoly} (hp : p.Reduced) : p.IsNtt (ringOf p) := by
  refine ⟨hp, fun i hi => ?_⟩
  have hone := value_N_INV
  have hundo := twiddles.forward_inverse (h := 8) le_rfl le_rfl p.values
    (show i < 2 ^ 8 from hi)
  unfold ringOf
  rw [forward_smul]
  beta_reduce
  rw [hundo]
  linear_combination (-p.values i) * hone

end Stdx.MlDsa
