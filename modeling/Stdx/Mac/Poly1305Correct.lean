import Stdx.Mac.Poly1305
import Stdx.Foundation.Packing

/-!
# Poly1305 is exact

The limbs between blocks hold a value below `2 ^ 130 + 2 ^ 128`.  From there one
block neither overflows a word nor loses a carry, and one subtraction at the end is
enough.
-/

namespace Stdx.Mac

open Stdx.Foundation

/-! ## Words -/

theorem add64_spec {a b carry : Nat} (ha : a < 2 ^ 64) (hb : b < 2 ^ 64) (hc : carry ≤ 1) :
    (add64 a b carry).1 < 2 ^ 64 ∧ (add64 a b carry).2 ≤ 1 ∧
      (add64 a b carry).1 + 2 ^ 64 * (add64 a b carry).2 = a + b + carry := by
  simp only [add64]
  omega

theorem sub64_spec {a b borrow : Nat} (ha : a < 2 ^ 64) (hb : b < 2 ^ 64)
    (hc : borrow ≤ 1) :
    (sub64 a b borrow).1 < 2 ^ 64 ∧ (sub64 a b borrow).2 ≤ 1 ∧
      (sub64 a b borrow).1 + b + borrow = a + 2 ^ 64 * (sub64 a b borrow).2 := by
  simp only [sub64, overflowingSub]
  split <;> split <;> simp only at * <;> omega

theorem mul64_spec (a b : Nat) :
    (mul64 a b).1 < 2 ^ 64 ∧ (mul64 a b).1 + 2 ^ 64 * (mul64 a b).2 = a * b := by
  simp only [mul64]
  omega

theorem checkedAdd_eq {a b : Nat} (h : a + b < 2 ^ 64) : checkedAdd a b = some (a + b) :=
  if_pos h

theorem add128_spec {a u b v : Nat} (ha : a < 2 ^ 64) (hb : b < 2 ^ 64)
    (hhi : u + v + 1 < 2 ^ 64) :
    ∃ lo hi, add128 a u b v = some (lo, hi) ∧ lo < 2 ^ 64 ∧
      hi ≤ u + v + 1 ∧ lo + 2 ^ 64 * hi = a + b + 2 ^ 64 * (u + v) := by
  refine ⟨(a + b) % 2 ^ 64, u + v + (a + b) / 2 ^ 64, ?_, ?_, ?_, ?_⟩
  · simp only [add128, Option.bind_eq_bind]
    rw [checkedAdd_eq (by omega), Option.bind_some, checkedAdd_eq (by omega)]
    rfl
  all_goals omega

theorem select64_one (x y : Nat) (hx : x < 2 ^ 64) : select64 1 x y = x := by
  have hmask : wrappingSub64 1 1 = 0 := by decide
  rw [select64, hmask, Nat.zero_and, Nat.or_zero, Nat.sub_zero, Nat.and_comm,
    Nat.and_two_pow_sub_one_of_lt_two_pow hx]

theorem select64_zero (x y : Nat) (hy : y < 2 ^ 64) : select64 0 x y = y := by
  have hmask : wrappingSub64 0 1 = 2 ^ 64 - 1 := by decide
  rw [select64, hmask, Nat.sub_self, Nat.zero_and, Nat.zero_or, Nat.and_comm,
    Nat.and_two_pow_sub_one_of_lt_two_pow hy]

/-! ## The accumulator -/

namespace Limbs3

def value (h : Limbs3) : Nat := h.h0 + 2 ^ 64 * h.h1 + 2 ^ 128 * h.h2

structure Partial (h : Limbs3) : Prop where
  h0_lt : h.h0 < 2 ^ 64
  h1_lt : h.h1 < 2 ^ 64
  value_lt : h.value < 2 ^ 130 + 2 ^ 128

end Limbs3

namespace Limbs2

def value (r : Limbs2) : Nat := r.l0 + 2 ^ 64 * r.l1

structure Clamped (r : Limbs2) : Prop where
  l0_lt : r.l0 < 2 ^ 60
  l1_lt : r.l1 < 2 ^ 60

end Limbs2

/-- The high words of the products of `h2` are zero, and no sum of words overflows. -/
theorem product_spec {h0 h1 h2 : Nat} {r : Limbs2} (hh0 : h0 < 2 ^ 64) (hh1 : h1 < 2 ^ 64)
    (hh2 : h2 ≤ 7) (hr : r.Clamped) :
    ∃ t0 t1 t2 t3, product h0 h1 h2 r = some (t0, t1, t2, t3) ∧ t0 < 2 ^ 64 ∧
      t1 < 2 ^ 64 ∧ t2 < 2 ^ 64 ∧ t3 < 2 ^ 64 ∧
      t0 + 2 ^ 64 * t1 + 2 ^ 128 * t2 + 2 ^ 192 * t3 =
        (h0 + 2 ^ 64 * h1 + 2 ^ 128 * h2) * r.value := by
  obtain ⟨hr0, hr1⟩ := hr
  have hbound : ∀ {h l : Nat}, h < 2 ^ 64 → l < 2 ^ 60 → h * l < 2 ^ 64 * 2 ^ 60 :=
    fun hh hl => Nat.mul_lt_mul'' hh hl
  have hsmall : ∀ {l : Nat}, l < 2 ^ 60 → h2 * l ≤ 7 * 2 ^ 60 :=
    fun hl => Nat.mul_le_mul hh2 hl.le
  have hvalue : (h0 + 2 ^ 64 * h1 + 2 ^ 128 * h2) * r.value =
      h0 * r.l0 + 2 ^ 64 * (h1 * r.l0 + h0 * r.l1) +
        2 ^ 128 * (h2 * r.l0 + h1 * r.l1) + 2 ^ 192 * (h2 * r.l1) := by
    rw [Limbs2.value]
    ring
  rw [hvalue]
  have b00 := hbound hh0 hr0
  have b10 := hbound hh1 hr0
  have b01 := hbound hh0 hr1
  have b11 := hbound hh1 hr1
  have b20 := hsmall hr0
  have b21 := hsmall hr1
  obtain ⟨l00, e00⟩ := mul64_spec h0 r.l0
  obtain ⟨l10, e10⟩ := mul64_spec h1 r.l0
  obtain ⟨l20, e20⟩ := mul64_spec h2 r.l0
  obtain ⟨l01, e01⟩ := mul64_spec h0 r.l1
  obtain ⟨l11, e11⟩ := mul64_spec h1 r.l1
  obtain ⟨l21, e21⟩ := mul64_spec h2 r.l1
  simp only [product]
  generalize mul64 h0 r.l0 = m00 at *
  generalize mul64 h1 r.l0 = m10 at *
  generalize mul64 h2 r.l0 = m20 at *
  generalize mul64 h0 r.l1 = m01 at *
  generalize mul64 h1 r.l1 = m11 at *
  generalize mul64 h2 r.l1 = m21 at *
  obtain ⟨m1l, m1h, hm1, hm1l, hm1h, em1⟩ := add128_spec l10 l01 (u := m10.2)
    (v := m01.2) (by omega)
  obtain ⟨m2l, m2h, hm2, hm2l, hm2h, em2⟩ := add128_spec l20 l11 (u := 0)
    (v := m11.2) (by omega)
  rw [hm1, hm2]
  simp only [Option.bind_eq_bind, Option.bind_some]
  obtain ⟨a1, c1, s1⟩ := add64_spec hm1l (show m00.2 < 2 ^ 64 by omega) (show 0 ≤ 1 by decide)
  generalize add64 m1l m00.2 0 = x1 at *
  obtain ⟨a2, c2, s2⟩ := add64_spec hm2l (show m1h < 2 ^ 64 by omega) c1
  generalize add64 m2l m1h x1.2 = x2 at *
  obtain ⟨a3, c3, s3⟩ := add64_spec l21 (show m2h < 2 ^ 64 by omega) c2
  generalize add64 m21.1 m2h x2.2 = x3 at *
  refine ⟨_, _, _, _, rfl, l00, a1, a2, a3, ?_⟩
  omega

theorem and_three (n : Nat) : n &&& 3 = n % 4 := Nat.and_two_pow_sub_one_eq_mod n 2

theorem and_not_three {n : Nat} (hn : n < 2 ^ 64) :
    n &&& (2 ^ 64 - 1 - 3) = n / 4 * 4 := by
  refine Nat.eq_of_testBit_eq fun i => ?_
  have hmask : (2 ^ 64 - 1 - 3 : Nat) = (2 ^ 62 - 1) * 2 ^ 2 := by decide
  rw [hmask, show n / 4 * 4 = n / 2 ^ 2 * 2 ^ 2 from rfl, Nat.testBit_and,
    Nat.testBit_mul_two_pow, Nat.testBit_mul_two_pow, Nat.testBit_two_pow_sub_one,
    Nat.testBit_div_two_pow]
  by_cases hi : 2 ≤ i
  · rw [Nat.sub_add_cancel hi]
    by_cases hlt : i < 64
    · simp [hi, show i - 2 < 62 by omega]
    · have hzero : n.testBit i = false :=
        Nat.testBit_lt_two_pow (lt_of_lt_of_le hn (Nat.pow_le_pow_right (by decide) (by omega)))
      simp [hzero]
  · simp [hi]

/-- `2 ^ 130 = 5` modulo the prime: the part above bit 130 comes back five times. -/
theorem reduce_spec {t0 t1 t2 t3 : Nat} (h0 : t0 < 2 ^ 64) (h1 : t1 < 2 ^ 64)
    (h2 : t2 < 2 ^ 64) (h3 : t3 < 2 ^ 63) :
    ∃ h, reduce t0 t1 t2 t3 = some h ∧ h.h0 < 2 ^ 64 ∧ h.h1 < 2 ^ 64 ∧
      h.value = (t0 + 2 ^ 64 * t1 + 2 ^ 128 * t2 + 2 ^ 192 * t3) % 2 ^ 130 +
        5 * ((t0 + 2 ^ 64 * t1 + 2 ^ 128 * t2 + 2 ^ 192 * t3) / 2 ^ 130) := by
  have hshift : (t2 / 4 * 4) >>> 2 ||| ((t3 &&& 3) <<< 62) % 2 ^ 64 =
      t2 / 4 + t3 % 4 * 2 ^ 62 := by
    rw [and_three, Nat.shiftRight_eq_div_pow, Nat.mul_div_cancel _ (by decide),
      Nat.mod_eq_of_lt (by rw [Nat.shiftLeft_eq]; omega)]
    exact or_shiftLeft _ (by omega)
  simp only [reduce]
  rw [and_not_three h2, hshift, and_three, Nat.shiftRight_eq_div_pow]
  obtain ⟨a0, c0, s0⟩ := add64_spec h0 (show t2 / 4 * 4 < 2 ^ 64 by omega)
    (show 0 ≤ 1 by decide)
  generalize add64 t0 (t2 / 4 * 4) 0 = x0 at *
  obtain ⟨a1, c1, s1⟩ := add64_spec h1 (show t3 < 2 ^ 64 by omega) c0
  generalize add64 t1 t3 x0.2 = x1 at *
  simp only [Option.bind_eq_bind]
  rw [checkedAdd_eq (by omega), Option.bind_some]
  obtain ⟨b0, d0, u0⟩ := add64_spec a0 (show t2 / 4 + t3 % 4 * 2 ^ 62 < 2 ^ 64 by omega)
    (show 0 ≤ 1 by decide)
  generalize add64 x0.1 (t2 / 4 + t3 % 4 * 2 ^ 62) 0 = y0 at *
  obtain ⟨b1, d1, u1⟩ := add64_spec a1 (show t3 / 2 ^ 2 < 2 ^ 64 by omega) d0
  generalize add64 x1.1 (t3 / 2 ^ 2) y0.2 = y1 at *
  rw [checkedAdd_eq (by omega), Option.bind_some]
  refine ⟨_, rfl, b0, b1, ?_⟩
  simp only [Limbs3.value]
  have hhigh : (t0 + 2 ^ 64 * t1 + 2 ^ 128 * t2 + 2 ^ 192 * t3) / 2 ^ 130 =
      t2 / 4 + 2 ^ 62 * t3 := by omega
  have hlow : (t0 + 2 ^ 64 * t1 + 2 ^ 128 * t2 + 2 ^ 192 * t3) % 2 ^ 130 =
      t0 + 2 ^ 64 * t1 + 2 ^ 128 * (t2 % 4) := by omega
  rw [hhigh, hlow]
  omega

theorem absorb_spec {h : Limbs3} {r : Limbs2} {t0 t1 : Nat} (hibit : Bool)
    (hh : h.Partial) (hr : r.Clamped) (ht0 : t0 < 2 ^ 64) (ht1 : t1 < 2 ^ 64) :
    ∃ h', absorb h r t0 t1 hibit = some h' ∧ h'.Partial ∧
      h'.value % P = (h.value + (t0 + 2 ^ 64 * t1 +
        2 ^ 128 * if hibit then 1 else 0)) * r.value % P := by
  obtain ⟨hh0, hh1, hvalue⟩ := hh
  rw [Limbs3.value] at hvalue
  obtain ⟨a0, c0, s0⟩ := add64_spec hh0 ht0 (show 0 ≤ 1 by decide)
  obtain ⟨a1, c1, s1⟩ := add64_spec hh1 ht1 c0
  have hbit : (if hibit then 1 else 0) ≤ 1 := by split <;> decide
  simp only [absorb]
  generalize add64 h.h0 t0 0 = x0 at *
  generalize add64 h.h1 t1 x0.2 = x1 at *
  generalize (if hibit then 1 else 0) = bit at *
  simp only [Option.bind_eq_bind]
  rw [checkedAdd_eq (by omega), Option.bind_some, checkedAdd_eq (by omega), Option.bind_some]
  have hsum : x0.1 + 2 ^ 64 * x1.1 + 2 ^ 128 * (h.h2 + x1.2 + bit) =
      h.value + (t0 + 2 ^ 64 * t1 + 2 ^ 128 * bit) := by
    rw [Limbs3.value]
    omega
  have hsumlt : x0.1 + 2 ^ 64 * x1.1 + 2 ^ 128 * (h.h2 + x1.2 + bit) < 7 * 2 ^ 128 := by
    omega
  obtain ⟨u0, u1, u2, u3, hprod, hu0, hu1, hu2, hu3, hu⟩ :=
    product_spec a0 a1 (show h.h2 + x1.2 + bit ≤ 7 by omega) hr
  rw [hsum] at hu hsumlt
  have hrlt : r.value < 2 ^ 124 := by
    have := hr.l0_lt
    have := hr.l1_lt
    rw [Limbs2.value]
    omega
  have htotal : u0 + 2 ^ 64 * u1 + 2 ^ 128 * u2 + 2 ^ 192 * u3 < 7 * 2 ^ 128 * 2 ^ 124 := by
    rw [hu]
    exact Nat.mul_lt_mul'' hsumlt hrlt
  obtain ⟨h', hred, hlt0, hlt1, hval⟩ := reduce_spec hu0 hu1 hu2 (show u3 < 2 ^ 63 by omega)
  rw [hprod, Option.bind_some]
  refine ⟨h', hred, ⟨hlt0, hlt1, ?_⟩, ?_⟩
  · rw [hval]
    omega
  · rw [hval, ← hu]
    simp only [P]
    omega

/-! ## Blocks -/

theorem blockWords_spec {block : Bytes} (h : block.length = 16) :
    (blockWords block).1 < 2 ^ 64 ∧ (blockWords block).2 < 2 ^ 64 ∧
      (blockWords block).1 + 2 ^ 64 * (blockWords block).2 = leValue block := by
  have hlow := leValue_lt (block.take 8)
  have hhigh := leValue_lt ((block.drop 8).take 8)
  have hsplit := leValue_take_drop block (i := 8) (by omega)
  have htake : (block.drop 8).take 8 = block.drop 8 :=
    List.take_of_length_le (by simp; omega)
  simp only [blockWords, htake] at *
  have hlow64 : 256 ^ (block.take 8).length = 2 ^ 64 := by rw [List.length_take, h]; rfl
  have hhigh64 : 256 ^ (block.drop 8).length = 2 ^ 64 := by rw [List.length_drop, h]; rfl
  omega

/-- The sum of RFC 8439 over blocks, each with its padding octet, from an accumulator. -/
def horner (r : Nat) (acc : Nat) (values : List Nat) : Nat :=
  values.foldl (fun acc value => (acc + value) * r) acc

theorem horner_append (r acc : Nat) (front back : List Nat) :
    horner r acc (front ++ back) = horner r (horner r acc front) back :=
  List.foldl_append

theorem horner_mod {r a b : Nat} (values : List Nat) (h : a % P = b % P) :
    horner r a values % P = horner r b values % P := by
  induction values generalizing a b with
  | nil => exact h
  | cons value values ih =>
    exact ih (((Nat.ModEq.add_right value h).mul_right r : (a + value) * r ≡ _ [MOD P]))

theorem horner_eq_sum (r : Nat) (n : Nat) (value : Nat → Nat) :
    horner r 0 ((List.range n).map value) =
      ∑ i ∈ Finset.range n, value i * r ^ (n - i) := by
  induction n with
  | zero => rfl
  | succ n ih =>
    rw [List.range_succ, List.map_append, horner_append, ih, Finset.sum_range_succ]
    simp only [horner, List.map_cons, List.map_nil, List.foldl_cons, List.foldl_nil]
    rw [Nat.add_mul, Finset.sum_mul, Nat.add_sub_cancel_left, pow_one]
    refine congrArg (· + _) (Finset.sum_congr rfl fun i hi => ?_)
    have hlt := Finset.mem_range.mp hi
    rw [Nat.succ_sub hlt.le, pow_succ, mul_assoc]

def wholeBlocks (data : Bytes) : List Nat :=
  (List.range (data.length / 16)).map (paddedBlock data)

theorem wholeBlocks_cons {data : Bytes} (h : 16 ≤ data.length) :
    wholeBlocks data = (leValue (data.take 16) + 2 ^ 128) :: wholeBlocks (data.drop 16) := by
  have hcount : data.length / 16 = (data.drop 16).length / 16 + 1 := by
    rw [List.length_drop]
    omega
  rw [wholeBlocks, hcount, List.range_succ_eq_map, List.map_cons, List.map_map, wholeBlocks]
  refine congrArg₂ _ ?_ (List.map_congr_left fun i _ => ?_)
  · rw [paddedBlock, leValue_append, Nat.mul_zero, List.drop_zero, List.length_take,
      Nat.min_eq_left h, leValue_cons]
    simp
  · simp only [paddedBlock, Function.comp_apply, List.drop_drop]
    rw [show 16 * (i + 1) = 16 + 16 * i by ring]

theorem blocks_spec {r : Limbs2} (hr : r.Clamped) (data : Bytes) {h : Limbs3}
    (hh : h.Partial) :
    ∃ h', blocks r (data.length / 16) data h = some h' ∧ h'.Partial ∧
      h'.value % P = horner r.value h.value (wholeBlocks data) % P := by
  generalize hcount : data.length / 16 = count
  induction count generalizing data h with
  | zero =>
    refine ⟨h, rfl, hh, ?_⟩
    rw [wholeBlocks, hcount]
    rfl
  | succ count ih =>
    have hlength : 16 ≤ data.length := by omega
    obtain ⟨hw0, hw1, hword⟩ := @blockWords_spec (data.take 16) (by simp; omega)
    obtain ⟨h1, habsorb, hh1, hvalue1⟩ := absorb_spec true hh hr hw0 hw1
    obtain ⟨h', hrest, hh', hvalue⟩ := ih (data.drop 16) hh1 (by simp; omega)
    refine ⟨h', ?_, hh', ?_⟩
    · simp only [blocks, Option.bind_eq_bind]
      rw [habsorb, Option.bind_some, hrest]
    · rw [hvalue, wholeBlocks_cons hlength]
      refine horner_mod _ (hvalue1.trans ?_)
      rw [hword]
      simp

theorem finalBlock_spec {h : Limbs3} {r : Limbs2} {tail : Bytes} (hh : h.Partial)
    (hr : r.Clamped) (htail : tail.length < 16) :
    ∃ h', finalBlock h r tail = some h' ∧ h'.Partial ∧
      h'.value % P = (h.value + leValue (tail ++ [1])) * r.value % P := by
  have hlength : (tail ++ [1] ++ List.replicate (15 - tail.length) (0 : UInt8)).length =
      16 := by
    simp
    omega
  obtain ⟨hw0, hw1, hword⟩ := blockWords_spec hlength
  obtain ⟨h', habsorb, hh', hvalue⟩ := absorb_spec false hh hr hw0 hw1
  refine ⟨h', habsorb, hh', ?_⟩
  rw [hvalue, hword, leValue_append _ (List.replicate _ _), leValue_replicate_zero]
  simp

theorem finish_spec {h : Limbs3} {s : Limbs2} (hh : h.Partial) (hs0 : s.l0 < 2 ^ 64)
    (hs1 : s.l1 < 2 ^ 64) :
    finish h s = leOctets 16 ((h.value % P + s.value) % 2 ^ 128) := by
  obtain ⟨hh0, hh1, hvalue⟩ := hh
  rw [Limbs3.value] at hvalue
  obtain ⟨a0, b0, e0⟩ := sub64_spec hh0 (show P_0 < 2 ^ 64 by decide) (show 0 ≤ 1 by decide)
  obtain ⟨a1, b1, e1⟩ := sub64_spec hh1 (show P_1 < 2 ^ 64 by decide) b0
  obtain ⟨a2, b2, e2⟩ := sub64_spec (show h.h2 < 2 ^ 64 by omega)
    (show P_2 < 2 ^ 64 by decide) b1
  simp only [finish]
  generalize sub64 h.h0 P_0 0 = x0 at *
  generalize sub64 h.h1 P_1 x0.2 = x1 at *
  generalize sub64 h.h2 P_2 x1.2 = x2 at *
  obtain ⟨l0, l1, hl0, hl1, hl0lt, hl1lt, hlow⟩ : ∃ l0 l1,
      select64 x2.2 h.h0 x0.1 = l0 ∧ select64 x2.2 h.h1 x1.1 = l1 ∧ l0 < 2 ^ 64 ∧
        l1 < 2 ^ 64 ∧ l0 + 2 ^ 64 * l1 = h.value % P % 2 ^ 128 := by
    have hP : P = P_0 + 2 ^ 64 * P_1 + 2 ^ 128 * P_2 := by decide
    rcases Nat.le_one_iff_eq_zero_or_eq_one.mp b2 with hb | hb
    · have hge : P ≤ h.value := by
        rw [hP, Limbs3.value]
        omega
      have hmod : h.value % P = h.value - P := by
        rw [Nat.mod_eq_sub_mod hge, Nat.mod_eq_of_lt]
        rw [hP, Limbs3.value]
        simp only [P_0, P_1, P_2] at *
        omega
      rw [hb, select64_zero _ _ a0, select64_zero _ _ a1]
      refine ⟨_, _, rfl, rfl, a0, a1, ?_⟩
      rw [hmod, hP, Limbs3.value]
      omega
    · have hlt : h.value < P := by
        rw [hP, Limbs3.value]
        omega
      rw [hb, select64_one _ _ hh0, select64_one _ _ hh1]
      refine ⟨_, _, rfl, rfl, hh0, hh1, ?_⟩
      rw [Nat.mod_eq_of_lt hlt, Limbs3.value]
      omega
  rw [hl0, hl1]
  obtain ⟨u0, c0, f0⟩ := add64_spec hl0lt hs0 (show 0 ≤ 1 by decide)
  obtain ⟨u1, c1, f1⟩ := add64_spec hl1lt hs1 c0
  generalize add64 l0 s.l0 0 = y0 at *
  generalize add64 l1 s.l1 y0.2 = y1 at *
  refine leValue_inj (by simp) ?_
  rw [leValue_append, leOctets_length, leValue_leOctets, leValue_leOctets, leValue_leOctets,
    Limbs2.value]
  generalize h.value % P = residue at *
  omega

/-! ## Streaming -/

namespace Poly1305

/-- The whole blocks of the message so far are in the accumulator and the rest of it is
in the buffer. -/
structure Streams (key : FixedBytes 32) (message : Bytes) (mac : Poly1305) : Prop where
  keys : (mac.r, mac.s) = keyInit key
  limbs : mac.h.Partial
  value : mac.h.value % P = horner mac.r.value 0 (wholeBlocks message) % P
  length : mac.bufferLen = message.length % 16
  tail : mac.buffer.octets.take mac.bufferLen =
    message.drop (message.length / 16 * 16)

theorem keyInit_clamped (key : FixedBytes 32) : (keyInit key).1.Clamped := by
  have hmask : ∀ n mask : Nat, mask < 2 ^ 60 → n &&& mask < 2 ^ 60 :=
    fun n mask h => lt_of_le_of_lt Nat.and_le_right h
  exact ⟨hmask _ _ (by decide), hmask _ _ (by decide)⟩

theorem new_streams (key : FixedBytes 32) : (new key).Streams key [] :=
  ⟨rfl, ⟨show 0 < 2 ^ 64 by decide, show 0 < 2 ^ 64 by decide,
    show 0 < 2 ^ 130 + 2 ^ 128 by decide⟩, rfl, rfl, rfl⟩

theorem wholeBlocks_append {front : Bytes} (h : front.length % 16 = 0) (back : Bytes) :
    wholeBlocks (front ++ back) = wholeBlocks front ++ wholeBlocks back := by
  obtain ⟨count, hcount⟩ : ∃ count, front.length = 16 * count :=
    ⟨front.length / 16, by omega⟩
  clear h
  induction count generalizing front with
  | zero =>
    obtain rfl := List.length_eq_zero_iff.mp (by omega : front.length = 0)
    simp [wholeBlocks]
  | succ count ih =>
    have hlong : 16 ≤ front.length := by omega
    rw [@wholeBlocks_cons (front ++ back) (by simp; omega), wholeBlocks_cons hlong,
      List.take_append_of_le_length hlong, List.drop_append_of_le_length hlong,
      ih (by simp; omega), List.cons_append]

theorem wholeBlocks_append_short {front rest : Bytes} (hfront : front.length % 16 = 0)
    (h : rest.length < 16) : wholeBlocks (front ++ rest) = wholeBlocks front := by
  have hrest : wholeBlocks rest = [] := by
    rw [wholeBlocks, Nat.div_eq_of_lt h]
    rfl
  rw [wholeBlocks_append hfront, hrest, List.append_nil]

theorem wholeBlocks_take (data : Bytes) :
    wholeBlocks data = wholeBlocks (data.take (data.length / 16 * 16)) := by
  conv_lhs => rw [← List.take_append_drop (data.length / 16 * 16) data]
  exact wholeBlocks_append_short (by simp; omega) (by simp; omega)

theorem Streams.clamped {key : FixedBytes 32} {message : Bytes} {mac : Poly1305}
    (h : mac.Streams key message) : mac.r.Clamped := by
  have hr : mac.r = (keyInit key).1 := congrArg Prod.fst h.keys
  rw [hr]
  exact keyInit_clamped key

theorem copyInto_spec (buffer : FixedBytes 16) {start : Nat} {data : Bytes}
    (h : start + data.length ≤ 16) :
    ∃ b, copyInto buffer start data = some b ∧
      b.octets.take (start + data.length) = buffer.octets.take start ++ data := by
  have hlength := buffer.length_eq
  refine ⟨_, dif_pos h, ?_⟩
  simp only
  rw [List.take_append_of_le_length (by simp; omega), List.take_of_length_le (by simp)]

theorem absorbRest_streams {key : FixedBytes 32} {message : Bytes} {mac : Poly1305}
    (h : mac.Streams key message) (hempty : message.length % 16 = 0) (data : Bytes) :
    ∃ mac', absorbRest mac data = some mac' ∧ mac'.Streams key (message ++ data) := by
  obtain ⟨h', hblocks, hlimbs, hvalue⟩ := blocks_spec h.clamped data h.limbs
  have hnewvalue : h'.value % P =
      horner mac.r.value 0 (wholeBlocks (message ++ data)) % P := by
    rw [hvalue, wholeBlocks_append hempty, horner_append]
    exact horner_mod _ h.value
  have hlast : message.length % 16 = 0 := hempty
  have hwhole : (message ++ data).length / 16 * 16 =
      message.length + (data.length - data.length % 16) := by
    rw [List.length_append]
    omega
  have hdrop : (message ++ data).drop ((message ++ data).length / 16 * 16) =
      data.drop (data.length - data.length % 16) := by
    rw [hwhole, List.drop_length_add_append]
  simp only [absorbRest, Option.bind_eq_bind]
  rw [hblocks, Option.bind_some]
  split
  · next htail =>
    refine ⟨_, rfl, h.keys, hlimbs, hnewvalue, ?_, ?_⟩
    · have hzero : data.length % 16 = 0 := by
        have := congrArg List.length htail
        simp at this
        omega
      rw [h.length, List.length_append]
      omega
    · rw [hdrop, htail]
      simp only
      rw [h.length, hempty, List.take_zero]
  · have htail : (data.drop (data.length - data.length % 16)).length = data.length % 16 := by
      rw [List.length_drop]
      omega
    obtain ⟨buffer, hcopy, htake⟩ := @copyInto_spec mac.buffer 0
      (data.drop (data.length - data.length % 16)) (by omega)
    rw [hcopy, Option.bind_some]
    refine ⟨_, rfl, h.keys, hlimbs, hnewvalue, ?_, ?_⟩
    · rw [List.length_append]
      simp only [htail]
      omega
    · rw [hdrop]
      simpa using htake

theorem update_streams {key : FixedBytes 32} {message : Bytes} {mac : Poly1305}
    (h : mac.Streams key message) (data : Bytes) :
    ∃ mac', update mac data = some mac' ∧ mac'.Streams key (message ++ data) := by
  by_cases hbuffer : mac.bufferLen > 0
  · obtain ⟨toCopy, hto⟩ : ∃ toCopy, min (16 - mac.bufferLen) data.length = toCopy := ⟨_, rfl⟩
    have hlen := h.length
    obtain ⟨buffer, hcopy, htake⟩ := @copyInto_spec mac.buffer
      mac.bufferLen (data.take toCopy) (by simp; omega)
    have hcopied : (data.take toCopy).length = toCopy := by simp; omega
    rw [hcopied, h.tail] at htake
    simp only [update, hbuffer, if_true, hto, Option.bind_eq_bind]
    rw [hcopy, Option.bind_some]
    -- What the message is with the copied octets.
    have hfront : (message ++ data.take toCopy).length = message.length + toCopy := by
      rw [List.length_append, hcopied]
    split
    · next hfull =>
      have hblock : buffer.octets =
          message.drop (message.length / 16 * 16) ++ data.take toCopy := by
        rw [← htake, hfull, List.take_of_length_le (by rw [buffer.length_eq])]
      obtain ⟨h', hblocks, hlimbs, hvalue⟩ := blocks_spec h.clamped buffer.octets h.limbs
      rw [buffer.length_eq] at hblocks
      have hsplit : message ++ data.take toCopy =
          message.take (message.length / 16 * 16) ++ buffer.octets := by
        rw [hblock, ← List.append_assoc, List.take_append_drop]
      have hmid : Streams key (message ++ data.take toCopy)
          { mac with h := h', buffer := buffer, bufferLen := 0 } := by
        refine ⟨h.keys, hlimbs, ?_, ?_, ?_⟩
        · rw [hsplit, wholeBlocks_append (by simp; omega), horner_append,
            ← wholeBlocks_take]
          exact hvalue.trans (horner_mod _ h.value)
        · simp only [hfront]
          omega
        · simp only [List.take_zero]
          rw [List.drop_eq_nil_of_le]
          omega
      rw [hblocks, Option.bind_some]
      obtain ⟨mac', hrest, hstreams⟩ :=
        absorbRest_streams hmid (by rw [hfront]; omega) (data.drop toCopy)
      refine ⟨mac', hrest, ?_⟩
      rwa [List.append_assoc, List.take_append_drop] at hstreams
    · next hpart =>
      have hall : toCopy = data.length := by omega
      rw [hall, List.take_length] at htake hfront
      have hquot : (message.length + data.length) / 16 = message.length / 16 := by omega
      refine ⟨_, rfl, h.keys, h.limbs, ?_, ?_, ?_⟩
      · have hwhole : wholeBlocks (message ++ data) = wholeBlocks message := by
          conv_lhs => rw [← List.take_append_drop (message.length / 16 * 16) message,
            List.append_assoc]
          rw [wholeBlocks_append_short (by simp; omega) (by simp; omega),
            ← wholeBlocks_take]
        rw [hwhole]
        exact h.value
      · simp only [hfront, hall]
        omega
      · rw [hfront, hquot, List.drop_append_of_le_length (by omega)]
        simp only [hall]
        exact htake
  · have hzero : mac.bufferLen = 0 := by omega
    simp only [update, hbuffer, if_false]
    exact absorbRest_streams h (by rw [← h.length, hzero]) data

theorem updates_streams {key : FixedBytes 32} (chunks : List Bytes) {message : Bytes}
    {mac : Poly1305} (h : mac.Streams key message) :
    ∃ mac', updates mac chunks = some mac' ∧
      mac'.Streams key (message ++ chunks.flatten) := by
  induction chunks generalizing message mac with
  | nil => exact ⟨mac, rfl, by simpa using h⟩
  | cons data chunks ih =>
    obtain ⟨mac', hupdate, hstreams⟩ := update_streams h data
    obtain ⟨last, hrest, hlast⟩ := ih hstreams
    refine ⟨last, ?_, by simpa using hlast⟩
    simp only [updates, Option.bind_eq_bind]
    rw [hupdate, Option.bind_some, hrest]

/-! ## Tags -/

theorem and_two_words {a m : Nat} (ha : a < 2 ^ 64) (hm : m < 2 ^ 64) (b n : Nat) :
    (2 ^ 64 * b + a) &&& (2 ^ 64 * n + m) = 2 ^ 64 * (b &&& n) + (a &&& m) := by
  refine Nat.eq_of_testBit_eq fun i => ?_
  have hand : a &&& m < 2 ^ 64 := lt_of_le_of_lt Nat.and_le_left ha
  rw [Nat.testBit_and, Nat.testBit_two_pow_mul_add _ ha, Nat.testBit_two_pow_mul_add _ hm,
    Nat.testBit_two_pow_mul_add _ hand]
  split <;> rw [Nat.testBit_and]

theorem keyInit_value (key : FixedBytes 32) :
    (keyInit key).1.value = clamp (key.octets.take 16) ∧
      (keyInit key).2.value = leValue (key.octets.drop 16) ∧
      (keyInit key).2.l0 < 2 ^ 64 ∧ (keyInit key).2.l1 < 2 ^ 64 := by
  have hlength := key.length_eq
  have hword : ∀ i, leValue ((key.octets.drop i).take 8) < 2 ^ 64 := fun i => by
    refine lt_of_lt_of_le (leValue_lt _) ?_
    refine (Nat.pow_le_pow_right (by decide) (List.length_take_le 8 _)).trans ?_
    decide
  have hr := leValue_take_drop (key.octets.take 16) (i := 8) (by simp; omega)
  have hs := leValue_take_drop (key.octets.drop 16) (i := 8) (by simp; omega)
  refine ⟨?_, ?_, hword 16, hword 24⟩
  · have hlow : (key.octets.take 16).take 8 = (key.octets.drop 0).take 8 := by
      rw [List.take_take, List.drop_zero]
      rfl
    have hhigh : (key.octets.take 16).drop 8 = (key.octets.drop 8).take 8 := by
      rw [List.drop_take]
    rw [clamp, hr, hlow, hhigh, show (256 ^ 8 : Nat) = 2 ^ 64 by decide, Nat.add_comm,
      show (0x0ffffffc0ffffffc0ffffffc0fffffff : Nat) = 2 ^ 64 * R_MASK_1 + R_MASK_0 by
        decide, and_two_words (hword 0) (by decide)]
    simp only [keyInit, Limbs2.value]
    rw [Nat.add_comm]
  · have hhigh : (key.octets.drop 16).drop 8 = (key.octets.drop 24).take 8 := by
      rw [List.drop_drop, List.take_of_length_le (by simp; omega)]
    rw [hs, hhigh, show (256 ^ 8 : Nat) = 2 ^ 64 by decide]
    rfl

theorem polynomial_whole {r : Nat} {message : Bytes} (h : message.length % 16 = 0) :
    polynomial r message = horner r 0 (wholeBlocks message) := by
  have hcount : blockCount message = message.length / 16 := by
    rw [blockCount]
    omega
  rw [polynomial, wholeBlocks, horner_eq_sum, hcount]

theorem polynomial_partial {r : Nat} {message : Bytes} (h : 0 < message.length % 16) :
    polynomial r message = (horner r 0 (wholeBlocks message) +
      leValue (message.drop (message.length / 16 * 16) ++ [1])) * r := by
  have hcount : blockCount message = message.length / 16 + 1 := by
    rw [blockCount]
    omega
  rw [polynomial, ← horner_eq_sum, hcount, List.range_succ, List.map_append, horner_append]
  have hlast : paddedBlock message (message.length / 16) =
      leValue (message.drop (message.length / 16 * 16) ++ [1]) := by
    rw [paddedBlock, Nat.mul_comm, List.take_of_length_le (by simp; omega)]
  simp only [horner, List.map_cons, List.map_nil, List.foldl_cons, List.foldl_nil, hlast,
    wholeBlocks]

theorem finalize_streams {key : FixedBytes 32} {message : Bytes} {mac : Poly1305}
    (h : mac.Streams key message) : mac.finalize = some (rfcTag key message) := by
  obtain ⟨hrvalue, hsvalue, hs0, hs1⟩ := keyInit_value key
  rw [← h.keys] at hrvalue hsvalue hs0 hs1
  simp only at hrvalue hsvalue hs0 hs1
  obtain ⟨h', hfinal, hlimbs, hvalue⟩ : ∃ h', (if mac.bufferLen > 0
      then finalBlock mac.h mac.r (mac.buffer.octets.take mac.bufferLen)
      else some mac.h) = some h' ∧ h'.Partial ∧
        h'.value % P = polynomial mac.r.value message % P := by
    have hlen := h.length
    split
    · next hpos =>
      rw [h.tail]
      have htail : (message.drop (message.length / 16 * 16)).length < 16 := by simp; omega
      obtain ⟨h', hblock, hlimbs, hvalue⟩ := finalBlock_spec h.limbs h.clamped htail
      refine ⟨h', hblock, hlimbs, ?_⟩
      rw [hvalue, polynomial_partial (by omega)]
      exact (Nat.ModEq.add_right _ h.value).mul_right _
    · next hpos =>
      refine ⟨mac.h, rfl, h.limbs, ?_⟩
      rw [h.value, polynomial_whole (by omega)]
  have hfinish : mac.finalize = some (finish h' mac.s) := by
    unfold finalize
    split at hfinal
    · next hpos =>
      rw [if_pos hpos, hfinal]
      rfl
    · next hpos =>
      rw [if_neg hpos, hfinal]
      rfl
  rw [hfinish, finish_spec hlimbs hs0 hs1, hvalue, rfcTag, hrvalue, hsvalue]

/--
However the message is split into calls of `update`, no word overflows, the words of
`h2 * r` the code drops are zero, and the tag is that of RFC 8439.
-/
theorem poly1305_exact (key : FixedBytes 32) (chunks : List Bytes) :
    ∃ mac, updates (new key) chunks = some mac ∧
      (mul64 (mac.h.h2 + 2) mac.r.l0).2 = 0 ∧ (mul64 (mac.h.h2 + 2) mac.r.l1).2 = 0 ∧
      mac.finalize = some (rfcTag key chunks.flatten) := by
  obtain ⟨mac, hupdates, hstreams⟩ := updates_streams chunks (new_streams key)
  have hsmall : ∀ {l : Nat}, l < 2 ^ 60 → (mul64 (mac.h.h2 + 2) l).2 = 0 := fun hl => by
    have hvalue := hstreams.limbs.value_lt
    rw [Limbs3.value] at hvalue
    refine Nat.div_eq_of_lt (lt_of_le_of_lt (Nat.mul_le_mul (show _ ≤ 7 by omega) hl.le) ?_)
    decide
  exact ⟨mac, hupdates, hsmall hstreams.clamped.l0_lt, hsmall hstreams.clamped.l1_lt,
    finalize_streams hstreams⟩

end Poly1305

end Stdx.Mac
