import Stdx.Curve25519.Field

/-!
# What the reductions return

Folding twice subtracts a multiple of `2p = 2^256 - 38` and never goes below the first
multiple it meets: a product of at least `2p` whose residue is below 38 comes out as that
residue and `2p` more.
-/

namespace Stdx.Curve25519

open Stdx.Foundation Stdx.BigNumber

theorem P_value : P.value = 2 ^ 255 - 19 := by decide

theorem foldHigh_value {low high : Limbs} (carry : UInt64) (h : low.length = high.length) :
    limbsValue (foldHigh low high carry).1 +
        radix ^ low.length * (foldHigh low high carry).2.toNat =
      limbsValue low + 38 * limbsValue high + carry.toNat := by
  induction low generalizing high carry with
  | nil =>
    cases high with
    | nil => simp [foldHigh]
    | cons other high => simp at h
  | cons word low ih =>
    cases high with
    | nil => simp at h
    | cons other high =>
      have hword := mac_value word 38 other carry
      have hrest := ih (mac word 38 other carry).2 (by simpa using h)
      have hconst : (38 : UInt64).toNat = 38 := rfl
      rw [hconst] at hword
      simp only [foldHigh, limbsValue_cons, List.length_cons, pow_succ']
      linear_combination hword + radix * hrest

theorem addExtra_value (words : Limbs) (extra : UInt64) :
    limbsValue (addExtra words extra).1 +
        radix ^ words.length * (addExtra words extra).2.toNat =
      limbsValue words + extra.toNat := by
  induction words generalizing extra with
  | nil => simp [addExtra]
  | cons word words ih =>
    have hword := adc_value word extra 0
    have hrest := ih (adc word extra 0).2
    rw [UInt64.toNat_zero] at hword
    simp only [addExtra, limbsValue_cons, List.length_cons, pow_succ']
    linear_combination hword + radix * hrest

theorem fold_twice {n carry low extra result : Nat} (hn : n < 2 ^ 256 * 2 ^ 256)
    (hfold : n % 2 ^ 256 + 38 * (n / 2 ^ 256) = low + 2 ^ 256 * carry) (hlow : low < 2 ^ 256)
    (hextra : low + 38 * carry = result + 2 ^ 256 * extra) (hresult : result < 2 ^ 256) :
    result + 38 * extra =
      if 2 ^ 256 - 38 ≤ n ∧ n % (2 ^ 256 - 38) < 38 then
        n % (2 ^ 256 - 38) + (2 ^ 256 - 38) else n % (2 ^ 256 - 38) := by
  have hcarry : carry ≤ 38 := by omega
  have hsmall : extra ≤ 1 := by omega
  have hsub : result + 38 * extra + (n / 2 ^ 256 + carry + extra) * (2 ^ 256 - 38) = n := by omega
  have hmod : n % (2 ^ 256 - 38) = (result + 38 * extra) % (2 ^ 256 - 38) := by
    conv_lhs => rw [← hsub, Nat.add_mul_mod_self_right]
  rw [hmod]
  by_cases hbelow : result + 38 * extra < 2 ^ 256 - 38
  · rw [Nat.mod_eq_of_lt hbelow, if_neg]
    rintro ⟨hlarge, hresidue⟩
    omega
  · have hresidue : (result + 38 * extra) % (2 ^ 256 - 38) =
        result + 38 * extra - (2 ^ 256 - 38) := by omega
    rw [hresidue, if_pos (by omega)]
    omega

theorem fold38_value {p : Limbs} (h : p.length = 8) :
    limbsValue (fold38 p) =
      if 2 ^ 256 - 38 ≤ limbsValue p ∧ limbsValue p % (2 ^ 256 - 38) < 38 then
        limbsValue p % (2 ^ 256 - 38) + (2 ^ 256 - 38)
      else limbsValue p % (2 ^ 256 - 38) := by
  have hradix : radix ^ 4 = 2 ^ 256 := by
    rw [radix, ← pow_mul]
  have hn := limbsValue_lt p
  rw [h, show 8 = 4 + 4 from rfl, pow_add, hradix] at hn
  have htake : (p.take 4).length = 4 := by rw [List.length_take, h]; rfl
  have hdrop : (p.drop 4).length = 4 := by rw [List.length_drop, h]
  have hhigh := foldHigh_value 0 (htake.trans hdrop.symm)
  have hlength := foldHigh_length (p.take 4) (p.drop 4) 0 (htake.trans hdrop.symm)
  rw [limbsValue_take, limbsValue_drop, htake, hradix, UInt64.toNat_zero, Nat.add_zero] at hhigh
  unfold fold38
  simp only
  generalize foldHigh (p.take 4) (p.drop 4) 0 = first at hhigh hlength ⊢
  obtain ⟨low, carry⟩ := first
  simp only at hhigh hlength ⊢
  have hlow := limbsValue_lt low
  rw [hlength, htake, hradix] at hlow
  have hadd := addExtra_value low (carry * 38)
  have hadded := addExtra_length low (carry * 38)
  have hcarry : carry.toNat ≤ 38 := by omega
  have hmul : (carry * 38).toNat = 38 * carry.toNat := by
    have hconst : (38 : UInt64).toNat = 38 := rfl
    rw [UInt64.toNat_mul, hconst, Nat.mul_comm, Nat.mod_eq_of_lt (by omega)]
  rw [hlength, htake, hradix, hmul] at hadd
  generalize addExtra low (carry * 38) = second at hadd hadded ⊢
  obtain ⟨words, extra⟩ := second
  simp only at hadd hadded ⊢
  have hwords := limbsValue_lt words
  rw [hadded, hlength, htake, hradix] at hwords
  rw [← fold_twice hn hhigh.symm hlow hadd.symm hwords]
  have hextra : extra.toNat ≤ 1 := by omega
  by_cases hpos : 0 < extra
  · have hone : extra.toNat = 1 := by
      have := UInt64.lt_iff_toNat_lt.mp hpos
      rw [UInt64.toNat_zero] at this
      omega
    rw [if_pos hpos]
    cases words with
    | nil => simp [hlength, htake] at hadded
    | cons word words =>
      have hword := adc_value word 38 0
      have hwrap := toNat_lt_radix (adc word 38 0).1
      have hconst : (38 : UInt64).toNat = 38 := rfl
      rw [hconst, UInt64.toNat_zero] at hword
      simp only [limbsValue_cons] at hadd hwords ⊢
      unfold radix at *
      omega
  · have hzero : extra.toNat = 0 := by
      have := mt UInt64.lt_iff_toNat_lt.mpr hpos
      rw [UInt64.toNat_zero] at this
      omega
    rw [if_neg hpos, hzero, Nat.mul_zero, Nat.add_zero]

/-! ## The operations -/

namespace FieldElement

theorem mulRelaxed_toNat (a b : FieldElement) :
    (a.mulRelaxed b).toNat =
      if 2 ^ 256 - 38 ≤ a.toNat * b.toNat ∧ a.toNat * b.toNat % (2 ^ 256 - 38) < 38 then
        a.toNat * b.toNat % (2 ^ 256 - 38) + (2 ^ 256 - 38)
      else a.toNat * b.toNat % (2 ^ 256 - 38) := by
  have hfold := fold38_value (mul4x4_length a.value.length_eq b.value.length_eq)
  rw [mul4x4_value a.value.length_eq b.value.length_eq] at hfold
  exact hfold

theorem squareRelaxed_eq (a : FieldElement) : a.squareRelaxed = a.mulRelaxed a := rfl

theorem square_eq (a : FieldElement) : a.square = a.mul a := rfl

theorem select_subRaw (x : U256) :
    (Uint.ctSelect (x.subRaw P).1 x ((x.subRaw P).2 == 0)).value =
      if P.value ≤ x.value then x.value - P.value else x.value := by
  have hsub := Uint.subRaw_value x P
  have hborrow := Uint.subRaw_borrow x P
  have hchoice : ((x.subRaw P).2 == 0) = x.ctGe P := rfl
  rw [hchoice, Uint.ctGe_eq, Uint.ctSelect_eq]
  by_cases hle : P.value ≤ x.value
  · rw [if_neg (by omega)] at hborrow
    rw [hborrow, UInt64.toNat_zero, Nat.mul_zero, Nat.add_zero] at hsub
    rw [if_pos (decide_eq_true hle), if_pos hle]
    omega
  · rw [if_neg (by simpa using hle), if_neg hle]

theorem mul_toNat (a b : FieldElement) :
    (a.mul b).toNat = a.toNat * b.toNat % P.value := by
  have hrelaxed := mulRelaxed_toNat a b
  generalize hn : a.toNat * b.toNat = n at hrelaxed ⊢
  have hmul : (a.mul b).toNat =
      if P.value ≤ (if P.value ≤ (a.mulRelaxed b).toNat then (a.mulRelaxed b).toNat - P.value
          else (a.mulRelaxed b).toNat) then
        (if P.value ≤ (a.mulRelaxed b).toNat then (a.mulRelaxed b).toNat - P.value
          else (a.mulRelaxed b).toNat) - P.value
      else (if P.value ≤ (a.mulRelaxed b).toNat then (a.mulRelaxed b).toNat - P.value
          else (a.mulRelaxed b).toNat) := by
    have hfirst := select_subRaw (a.mulRelaxed b).value
    have hsecond := select_subRaw (Uint.ctSelect ((a.mulRelaxed b).value.subRaw P).1
      (a.mulRelaxed b).value (((a.mulRelaxed b).value.subRaw P).2 == 0))
    rw [hfirst] at hsecond
    exact hsecond
  rw [hmul, P_value]
  generalize (a.mulRelaxed b).toNat = r at hrelaxed ⊢
  split at hrelaxed <;> split_ifs <;> omega

/-- The range the relaxed operations return and take, as documented. -/
def Relaxed (a : FieldElement) : Prop := a.toNat < 2 * P.value

instance (a : FieldElement) : Decidable a.Relaxed := inferInstanceAs (Decidable (_ < _))

def Folds (n : Nat) : Prop := n < 2 * P.value ∨ 38 ≤ n % (2 * P.value)

theorem mulRelaxed_mod (a b : FieldElement) :
    (a.mulRelaxed b).toNat % P.value = a.toNat * b.toNat % P.value := by
  rw [mulRelaxed_toNat, P_value]
  generalize a.toNat * b.toNat = n
  split <;> omega

theorem mulRelaxed_relaxed_iff (a b : FieldElement) :
    (a.mulRelaxed b).Relaxed ↔ Folds (a.toNat * b.toNat) := by
  unfold Relaxed Folds
  rw [mulRelaxed_toNat, P_value]
  generalize a.toNat * b.toNat = n
  split <;> omega

/-- The relaxed product and square are right modulo `p` for all operands, and in the
documented range exactly where the products fold below `2p`. -/
theorem relaxed_operations_iff (a b : FieldElement) :
    ((a.mulRelaxed b).toNat % P.value = a.toNat * b.toNat % P.value ∧
        (a.mulRelaxed b).Relaxed ∧
        a.squareRelaxed.toNat % P.value = a.toNat ^ 2 % P.value ∧ a.squareRelaxed.Relaxed) ↔
      Folds (a.toNat * b.toNat) ∧ Folds (a.toNat ^ 2) := by
  rw [squareRelaxed_eq, pow_two, mulRelaxed_relaxed_iff, mulRelaxed_relaxed_iff]
  constructor
  · exact fun h => ⟨h.2.1, h.2.2.2⟩
  · exact fun h => ⟨mulRelaxed_mod a b, h.1, mulRelaxed_mod a a, h.2⟩

/-- The product keeps every carry, the two folds keep its residue, the subtractions take off
what they should, and what is left is the canonical representative. -/
theorem mul_square_canonical (a b : FieldElement) :
    limbsValue (mul4x4 a.value.limbs b.value.limbs) = a.toNat * b.toNat ∧
      (a.mulRelaxed b).toNat % P.value = a.toNat * b.toNat % P.value ∧
      (∃ times ≤ 2, (a.mulRelaxed b).toNat = (a.mul b).toNat + times * P.value) ∧
      (a.mul b).toNat = a.toNat * b.toNat % P.value ∧ (a.mul b).toNat < P.value ∧
      a.square.toNat = a.toNat ^ 2 % P.value ∧ a.square.toNat < P.value := by
  have hmul := mul_toNat a b
  have hsquare := mul_toNat a a
  have hpos : 0 < P.value := by
    rw [P_value]
    decide
  refine ⟨mul4x4_value a.value.length_eq b.value.length_eq, mulRelaxed_mod a b, ?_, hmul,
    ?_, ?_, ?_⟩
  · -- below `2^256` there are at most two multiples of `p` to take off
    have hbound := (a.mulRelaxed b).value.value_lt
    have hdiv := Nat.mod_add_div (a.mulRelaxed b).toNat P.value
    refine ⟨(a.mulRelaxed b).toNat / P.value, ?_, ?_⟩
    · apply Nat.le_of_lt_succ
      apply (Nat.div_lt_iff_lt_mul hpos).mpr
      refine lt_of_lt_of_le hbound ?_
      rw [P_value]
      decide
    · rw [hmul, ← mulRelaxed_mod, Nat.mul_comm _ P.value, hdiv]
  · rw [hmul]
    exact Nat.mod_lt _ hpos
  · rw [square_eq, hsquare, pow_two]
  · rw [square_eq, hsquare]
    exact Nat.mod_lt _ hpos

/-- Four times `2^254 - 9`, both canonical, comes out as `2^256 - 36`. -/
theorem mulRelaxed_above_range :
    ¬∀ a b : FieldElement, a.toNat < P.value → b.toNat < P.value →
      (a.mulRelaxed b).toNat % P.value = a.toNat * b.toNat % P.value ∧
        (a.mulRelaxed b).Relaxed ∧
        a.squareRelaxed.toNat % P.value = a.toNat ^ 2 % P.value ∧ a.squareRelaxed.Relaxed := by
  intro h
  obtain ⟨_, hrelaxed, _⟩ := h ⟨⟨[4, 0, 0, 0], rfl⟩⟩
    ⟨⟨[0xfffffffffffffff7, 0xffffffffffffffff, 0xffffffffffffffff, 0x3fffffffffffffff], rfl⟩⟩
    (by decide) (by decide)
  exact absurd hrelaxed (by decide)

end FieldElement

end Stdx.Curve25519
