import Stdx.BigNumber.Arithmetic
import Stdx.Foundation.Reciprocal

/-!
# Barrett reduction

The reciprocal `mu` is the quotient of `2 ^ (128 * k)` by the modulus, cut to
`k + 1` limbs.  It fits unless the modulus is a power of the radix: there every
quotient bit kept is zero, and the reduction only subtracts the modulus twice.
-/

namespace Stdx.BigNumber

open Stdx.Foundation

namespace Uint

variable {BITS LIMBS : Nat}

/-! ## Effective limbs -/

theorem log2_add_mul_radix {low high i : Nat} (hlow : low < radix ^ i)
    (hhigh : high ≠ 0) :
    Nat.log2 (low + radix ^ i * high) = 64 * i + Nat.log2 high := by
  have hpow : radix ^ i = 2 ^ (64 * i) := by rw [radix, ← pow_mul]
  have hpos : 0 < radix ^ i := pow_pos radix_pos i
  have hle := Nat.log2_self_le hhigh
  have hlt := Nat.lt_log2_self (n := high)
  have hmul : radix ^ i * 2 ^ Nat.log2 high ≤ radix ^ i * high :=
    Nat.mul_le_mul_left _ hle
  have hmul' : radix ^ i * (high + 1) ≤ radix ^ i * 2 ^ (Nat.log2 high + 1) :=
    Nat.mul_le_mul_left _ hlt
  rw [Nat.log2_eq_iff (by
    have := Nat.mul_pos hpos (Nat.pos_of_ne_zero hhigh)
    omega)]
  rw [Nat.mul_add, Nat.mul_one] at hmul'
  constructor
  · rw [pow_add, ← hpow]
    omega
  · rw [Nat.add_assoc, pow_add, ← hpow]
    omega

theorem bitLenFrom_eq {limbs : Limbs} {i : Nat} (hi : i ≤ limbs.length) :
    bitLenFrom limbs i =
      if limbsValue (limbs.take i) = 0 then 0
      else Nat.log2 (limbsValue (limbs.take i)) + 1 := by
  induction i with
  | zero => simp [bitLenFrom]
  | succ i ih =>
    have hget : limbs.getD i 0 = limbs[i] := by
      simp [List.getD_eq_getElem?_getD, List.getElem?_eq_getElem hi]
    have htake : limbsValue (limbs.take (i + 1)) =
        limbsValue (limbs.take i) + radix ^ i * (limbs.getD i 0).toNat := by
      rw [List.take_succ_eq_append_getElem hi, limbsValue_append,
        List.length_take_of_le (by omega), hget]
      simp
    have hlt := limbsValue_lt (limbs.take i)
    rw [List.length_take_of_le (by omega)] at hlt
    simp only [bitLenFrom]
    by_cases hzero : limbs.getD i 0 = 0
    · rw [if_neg (by simpa using hzero), ih (by omega), htake, hzero]
      simp
    · have hne : (limbs.getD i 0).toNat ≠ 0 := fun h =>
        hzero (UInt64.toNat_inj.mp h)
      have hlog : Nat.log2 (limbs.getD i 0).toNat < 64 :=
        (Nat.log2_lt hne).mpr (toNat_lt_radix _)
      have hpos := Nat.mul_pos (pow_pos radix_pos i) (Nat.pos_of_ne_zero hne)
      rw [if_pos hzero, leadingZeros, if_neg hzero, htake, if_neg (by omega),
        log2_add_mul_radix hlt hne]
      omega

theorem bitLen_eq (x : Uint BITS LIMBS) :
    x.bitLen = if x.value = 0 then 0 else Nat.log2 x.value + 1 := by
  rw [bitLen, bitLenFrom_eq x.length_eq.ge,
    List.take_of_length_le x.length_eq.le]
  rfl

theorem bitLen_le_iff (x : Uint BITS LIMBS) (n : Nat) :
    x.bitLen ≤ n ↔ x.value < 2 ^ n := by
  rw [bitLen_eq]
  split
  · next hzero => simp [hzero]
  · next hne => exact Nat.log2_lt hne

theorem effLimbs_spec {modulus : Uint BITS LIMBS} (hm : 0 < modulus.value) :
    radix ^ (modulus.effLimbs - 1) ≤ modulus.value ∧
      modulus.value < radix ^ modulus.effLimbs ∧
      1 ≤ modulus.effLimbs ∧ modulus.effLimbs ≤ LIMBS := by
  have hne : modulus.value ≠ 0 := by omega
  have heff : modulus.effLimbs = Nat.log2 modulus.value / 64 + 1 := by
    rw [effLimbs, bitLen_eq, if_neg hne]
    omega
  have hle := Nat.log2_self_le hne
  have hlt := Nat.lt_log2_self (n := modulus.value)
  have hlower : radix ^ (modulus.effLimbs - 1) ≤ modulus.value := by
    rw [heff, Nat.add_sub_cancel, radix, ← pow_mul]
    exact (Nat.pow_le_pow_right (by omega) (by omega)).trans hle
  refine ⟨hlower, ?_, by omega, ?_⟩
  · rw [heff, radix, ← pow_mul]
    exact hlt.trans_le (Nat.pow_le_pow_right (by omega) (by omega))
  · have hsize := hlower.trans_lt (value_lt modulus)
    have := (Nat.pow_lt_pow_iff_right one_lt_radix).mp hsize
    omega

/-! ## The reciprocal -/

theorem or_bit_value {words : Limbs} {i : Nat} (hi : i / 64 < words.length)
    (hzero : limbsValue words % 2 ^ (i + 1) = 0) :
    limbsValue (words.set (i / 64)
        (words.getD (i / 64) 0 ||| (1 <<< UInt64.ofNat (i % 64)))) =
      limbsValue words + 2 ^ i := by
  have hset := limbsValue_set hi
    (words.getD (i / 64) 0 ||| (1 <<< UInt64.ofNat (i % 64)))
  have hmod : i % 64 < 64 := Nat.mod_lt _ (by omega)
  have hbit : ((1 : UInt64) <<< UInt64.ofNat (i % 64)).toNat = 2 ^ (i % 64) := by
    have hlt : 2 ^ (i % 64) < 2 ^ 64 := Nat.pow_lt_pow_right (by omega) hmod
    have hmod' : (UInt64.ofNat (i % 64)).toNat % 64 = i % 64 := by
      rw [toNat_ofNat_radix]
      unfold radix
      omega
    rw [UInt64.toNat_shiftLeft, hmod', UInt64.toNat_one, Nat.shiftLeft_eq,
      Nat.one_mul, Nat.mod_eq_of_lt hlt]
  have hpow : radix ^ (i / 64) = 2 ^ (64 * (i / 64)) := by
    rw [radix, ← pow_mul]
  have hsplit : 2 ^ i = radix ^ (i / 64) * 2 ^ (i % 64) := by
    rw [hpow, ← pow_add]
    congr 1
    omega
  -- The word at `i / 64` is zero up to the bit that is set.
  have hword : (words.getD (i / 64) 0).toNat % 2 ^ (i % 64 + 1) = 0 := by
    obtain ⟨c, hc⟩ := Nat.dvd_of_mod_eq_zero hzero
    have hdiv : limbsValue words / radix ^ (i / 64) = 2 ^ (i % 64 + 1) * c := by
      rw [hc, pow_succ, hsplit, Nat.div_eq_of_eq_mul_right (pow_pos radix_pos _)]
      ring
    rw [getD_toNat, hdiv, radix, Nat.mod_mod_of_dvd _
      (pow_dvd_pow 2 (by omega)), Nat.mul_mod_right]
  have hor : (words.getD (i / 64) 0 ||| (1 <<< UInt64.ofNat (i % 64))).toNat =
      (words.getD (i / 64) 0).toNat + 2 ^ (i % 64) := by
    obtain ⟨c, hc⟩ := Nat.dvd_of_mod_eq_zero hword
    rw [UInt64.toNat_or, hbit, hc, Nat.two_pow_add_eq_or_of_lt
      (Nat.pow_lt_pow_right (by omega) (by omega))]
  rw [hor, Nat.mul_add, ← hsplit] at hset
  omega

theorem shift_or_value {r : Uint BITS LIMBS} {bit : UInt64}
    (hbit : bit.toNat ≤ 1) (hlimbs : 0 < LIMBS)
    (shifted : Uint BITS LIMBS)
    (hshifted : shifted.limbs =
      (r.shift 0).1.limbs.set 0 ((r.shift 0).1.limbs.getD 0 0 ||| bit)) :
    shifted.value + radix ^ LIMBS * (r.shift 0).2.toNat =
      2 * r.value + bit.toNat := by
  obtain ⟨hshift, -⟩ := shift_value r (b := 0) (by simp)
  have hset := limbsValue_set (w := (r.shift 0).1.limbs) (i := 0)
    (by rw [(r.shift 0).1.length_eq]; exact hlimbs)
    ((r.shift 0).1.limbs.getD 0 0 ||| bit)
  obtain ⟨n, rfl⟩ : ∃ n, LIMBS = n + 1 := ⟨LIMBS - 1, by omega⟩
  have heven : (((r.shift 0).1.limbs).getD 0 0).toNat % 2 = 0 := by
    have hlow := getD_toNat (r.shift 0).1.limbs 0
    rw [pow_zero, Nat.div_one] at hlow
    rw [hlow, radix, Nat.mod_mod_of_dvd _ (by decide)]
    have hpow : radix ^ (n + 1) = 2 * (radix ^ n * 2 ^ 63) := by
      rw [pow_succ, radix]
      ring
    change (r.shift 0).1.value % 2 = 0
    rw [hpow, UInt64.toNat_zero] at hshift
    have : 2 * (radix ^ n * 2 ^ 63) * (r.shift 0).2.toNat =
        2 * (radix ^ n * 2 ^ 63 * (r.shift 0).2.toNat) := by ring
    omega
  have hor : ((r.shift 0).1.limbs.getD 0 0 ||| bit).toNat =
      ((r.shift 0).1.limbs.getD 0 0).toNat + bit.toNat := by
    obtain ⟨c, hc⟩ := Nat.dvd_of_mod_eq_zero heven
    rw [UInt64.toNat_or, hc]
    exact (Nat.two_pow_add_eq_or_of_lt (i := 1) (by omega) c).symm
  rw [pow_zero, Nat.one_mul, Nat.one_mul, hor] at hset
  rw [value, hshifted]
  rw [value, UInt64.toNat_zero] at hshift
  omega

/-- After bit `i` of the dividend `2 ^ (128 * eff)`. -/
structure MuInv (modulus : Uint BITS LIMBS) (eff i : Nat)
    (s : Limbs × Uint BITS LIMBS) : Prop where
  length_eq : s.1.length = MAX_LIMBS
  mu_eq : limbsValue s.1 =
    2 ^ (eff * 128) / 2 ^ i / modulus.value * 2 ^ i % radix ^ (eff + 1)
  rem_eq : s.2.value = 2 ^ (eff * 128) / 2 ^ i % modulus.value

private theorem dividend_bit {total i : Nat} (hi : i ≤ total) :
    (if i = total then (1 : UInt64) else 0).toNat = 2 ^ total / 2 ^ i % 2 := by
  rw [Nat.pow_div hi (by omega)]
  by_cases h : i = total
  · simp [h]
  · rw [if_neg h, show total - i = total - i - 1 + 1 by omega, pow_succ,
      Nat.mul_mod_left]
    rfl

theorem quotient_step {q b m : Nat} (hm : 0 < m) (hb : b ≤ 1) :
    (2 * q + b) / m = 2 * (q / m) + (if m ≤ 2 * (q % m) + b then 1 else 0) ∧
      (2 * q + b) % m = (2 * (q % m) + b) % m := by
  have hmod := Nat.mod_lt q hm
  have hsplit : 2 * q + b = 2 * (q % m) + b + m * (2 * (q / m)) := by
    calc 2 * q + b = 2 * (q % m + m * (q / m)) + b := by rw [Nat.mod_add_div]
      _ = 2 * (q % m) + b + m * (2 * (q / m)) := by ring
  rw [hsplit, Nat.add_mul_div_left _ _ hm, Nat.add_mul_mod_self_left]
  refine ⟨?_, rfl⟩
  split
  · next h =>
    have : (2 * (q % m) + b) / m = 1 := by
      rw [Nat.div_eq_iff hm]
      omega
    omega
  · next h =>
    rw [Nat.div_eq_of_lt (by omega)]
    omega

private theorem mod_radix_add_bit {q e i : Nat} :
    (q * 2 ^ (i + 1) + 2 ^ i) % radix ^ (e + 1) =
      q * 2 ^ (i + 1) % radix ^ (e + 1) +
        (if i / 64 < e + 1 then 2 ^ i else 0) ∧
      (i / 64 < e + 1 → q * 2 ^ (i + 1) % radix ^ (e + 1) % 2 ^ (i + 1) = 0) := by
  have hpow : radix ^ (e + 1) = 2 ^ (64 * (e + 1)) := by
    rw [radix, ← pow_mul]
  split
  · next h =>
    obtain ⟨d, hd⟩ : ∃ d, 64 * (e + 1) = i + 1 + d :=
      ⟨64 * (e + 1) - (i + 1), by omega⟩
    have hlt : 2 ^ i < 2 ^ (i + 1) := Nat.pow_lt_pow_right (by omega) (by omega)
    rw [hpow, hd, pow_add 2 (i + 1) d, Nat.mod_mul, Nat.mod_mul,
      Nat.mul_comm q, Nat.mul_add_mod, Nat.mul_mod_right, Nat.mod_eq_of_lt hlt,
      Nat.mul_add_div (by omega), Nat.div_eq_of_lt hlt, Nat.add_zero q,
      Nat.mul_div_cancel_left _ (by omega)]
    refine ⟨by omega, fun _ => ?_⟩
    rw [Nat.zero_add, Nat.mul_mod_right]
  · next h =>
    obtain ⟨d, hd⟩ : ∃ d, i = 64 * (e + 1) + d :=
      ⟨i - 64 * (e + 1), by omega⟩
    refine ⟨?_, fun hlt => absurd hlt h⟩
    rw [Nat.add_zero, hpow, Nat.add_mod, hd, pow_add 2 (64 * (e + 1)) d,
      Nat.mul_mod_right, Nat.add_zero, Nat.mod_mod]

theorem MuInv.step {modulus : Uint BITS LIMBS} {eff i : Nat}
    {s : Limbs × Uint BITS LIMBS} (hm : 0 < modulus.value) (hlimbs : 0 < LIMBS)
    (heff : eff + 1 ≤ MAX_LIMBS) (hi : i < eff * 128 + 1)
    (h : MuInv modulus eff (i + 1) s) :
    MuInv modulus eff i (muStep modulus eff i s) := by
  have hbit := dividend_bit (by omega : i ≤ eff * 128)
  have hone : (if i = eff * 128 then (1 : UInt64) else 0).toNat ≤ 1 := by
    rw [hbit]
    omega
  have hvalue := shift_or_value (r := s.2) hone hlimbs
    ⟨(s.2.shift 0).1.limbs.set 0 ((s.2.shift 0).1.limbs.getD 0 0 |||
      (if i = eff * 128 then 1 else 0)), by simp [(s.2.shift 0).1.length_eq]⟩ rfl
  obtain ⟨-, hcarry⟩ := shift_value s.2 (b := 0) (by simp)
  have hmod := Nat.mod_lt (2 ^ (eff * 128) / 2 ^ (i + 1)) hm
  have hsplit : 2 ^ (eff * 128) / 2 ^ i = 2 * (2 ^ (eff * 128) / 2 ^ (i + 1)) +
      2 ^ (eff * 128) / 2 ^ i % 2 := by
    rw [pow_succ, ← Nat.div_div_eq_div_mul]
    omega
  rw [hbit, h.rem_eq] at hvalue
  have hflag := condSub_flag
    ⟨(s.2.shift 0).1.limbs.set 0 ((s.2.shift 0).1.limbs.getD 0 0 |||
      (if i = eff * 128 then 1 else 0)), by simp [(s.2.shift 0).1.length_eq]⟩
    modulus hcarry (value_lt modulus)
  have hsub := condSub_value
    ⟨(s.2.shift 0).1.limbs.set 0 ((s.2.shift 0).1.limbs.getD 0 0 |||
      (if i = eff * 128 then 1 else 0)), by simp [(s.2.shift 0).1.length_eq]⟩
    modulus hcarry (by rw [hvalue]; omega)
  obtain ⟨hquot, hrem⟩ := quotient_step (q := 2 ^ (eff * 128) / 2 ^ (i + 1))
    (b := 2 ^ (eff * 128) / 2 ^ i % 2) hm (by omega)
  rw [← hsplit] at hquot hrem
  rw [hvalue] at hflag hsub
  rw [← hrem] at hsub
  obtain ⟨hadd, hzero⟩ := mod_radix_add_bit
    (q := 2 ^ (eff * 128) / 2 ^ (i + 1) / modulus.value) (e := eff) (i := i)
  have hmu := h.mu_eq
  have hlength := h.length_eq
  simp only [muStep]
  rw [hflag] at hsub ⊢
  by_cases hfits : modulus.value ≤ 2 * (2 ^ (eff * 128) / 2 ^ (i + 1) %
      modulus.value) + 2 ^ (eff * 128) / 2 ^ i % 2
  · rw [if_pos hfits] at hquot
    have htwo : 2 ^ (eff * 128) / 2 ^ i / modulus.value * 2 ^ i =
        2 ^ (eff * 128) / 2 ^ (i + 1) / modulus.value * 2 ^ (i + 1) + 2 ^ i := by
      rw [hquot]
      ring
    rw [decide_eq_true hfits] at hsub ⊢
    simp only [if_true]
    by_cases hcut : i / 64 < eff + 1
    · rw [if_pos hcut]
      rw [if_pos hcut] at hadd
      refine ⟨by simpa using hlength, ?_, hsub⟩
      rw [or_bit_value (by omega) (by rw [hmu]; exact hzero hcut), hmu, htwo, hadd]
    · rw [if_neg hcut]
      rw [if_neg hcut] at hadd
      exact ⟨hlength, by rw [hmu, htwo]; exact hadd.symm, hsub⟩
  · rw [if_neg hfits] at hquot
    rw [decide_eq_false hfits] at hsub ⊢
    refine ⟨hlength, ?_, hsub⟩
    simp only [Bool.false_eq_true, if_false]
    rw [hmu, hquot]
    congr 1
    ring

theorem computeMuForBarrett_value {modulus : Uint BITS LIMBS}
    (hm : 0 < modulus.value) (hwidth : LIMBS + 1 ≤ MAX_LIMBS) :
    ∃ mu, modulus.computeMuForBarrett = some mu ∧ mu.length = MAX_LIMBS ∧
      limbsValue mu = radix ^ (2 * modulus.effLimbs) / modulus.value %
        radix ^ (modulus.effLimbs + 1) := by
  obtain ⟨-, -, hpos, hle⟩ := effLimbs_spec hm
  have hstart : MuInv modulus modulus.effLimbs (modulus.effLimbs * 128 + 1)
      (List.replicate MAX_LIMBS 0, ZERO) := by
    have hzero : 2 ^ (modulus.effLimbs * 128) /
        2 ^ (modulus.effLimbs * 128 + 1) = 0 :=
      Nat.div_eq_of_lt (Nat.pow_lt_pow_right (by omega) (by omega))
    exact ⟨by simp, by simp [hzero], by simp [hzero]⟩
  have hrun := forDown_rule (f := muStep modulus modulus.effLimbs)
    (I := MuInv modulus modulus.effLimbs)
    (fun i s hi hinv => hinv.step hm (by omega) (by omega) hi) hstart
  have hpow : radix ^ (2 * modulus.effLimbs) = 2 ^ (modulus.effLimbs * 128) := by
    rw [radix, ← pow_mul]
    congr 1
    omega
  refine ⟨_, ?_, hrun.length_eq, ?_⟩
  · rw [computeMuForBarrett, computeMuForBarrettEff,
      if_pos ⟨hwidth, hpos, hle⟩]
  · rw [hrun.mu_eq, hpow, pow_zero, Nat.div_one, Nat.mul_one]

/-! ## The reduction -/

theorem blit_take {width : Nat} {words : Limbs} {count : Nat}
    (h : words.length = count) : (blit width words).take count = words := by
  subst h
  simp [blit]

private theorem modLimbs_value {modulus : Uint BITS LIMBS} {k1 : Nat}
    (hm : modulus.value < radix ^ k1) :
    limbsValue ((List.range k1).map fun j =>
      if j < LIMBS then modulus.limbs.getD j 0 else 0) = modulus.value := by
  have hpoint : ∀ j, (if j < LIMBS then modulus.limbs.getD j 0 else 0) =
      modulus.limbs.getD j 0 := by
    intro j
    split
    · rfl
    · next h =>
      rw [List.getD_eq_getElem?_getD,
        List.getElem?_eq_none (by rw [modulus.length_eq]; omega)]
      rfl
  have hinit : ∀ n, limbsValue ((List.range n).map fun j =>
      if j < LIMBS then modulus.limbs.getD j 0 else 0) =
        modulus.value % radix ^ n := by
    intro n
    induction n with
    | zero => simp [Nat.mod_one]
    | succ n ih =>
      rw [List.range_succ, List.map_append, limbsValue_append, ih,
        List.length_map, List.length_range, pow_succ, Nat.mod_mul]
      simp only [List.map_cons, List.map_nil, limbsValue_cons, limbsValue_nil,
        Nat.mul_zero, Nat.add_zero, hpoint, getD_toNat]
      rfl
  rw [hinit, Nat.mod_eq_of_lt hm]

theorem correct_value {W k1 : Nat} {modulus : Uint BITS LIMBS} {r : Limbs}
    (hm : modulus.value < radix ^ k1) (hr : r.length = k1) :
    ∃ r', correct W k1 modulus (blit W r) = blit W r' ∧ r'.length = k1 ∧
      limbsValue r' = if modulus.value ≤ limbsValue r then
        limbsValue r - modulus.value else limbsValue r := by
  have hmod := modLimbs_value hm
  have hlength : r.length = ((List.range k1).map fun j =>
      if j < LIMBS then modulus.limbs.getD j 0 else 0).length := by simp [hr]
  obtain ⟨hvalue, hborrow⟩ := subLimbs_value hlength (u := 0) (by simp)
  have htry := subLimbs_length _ _ 0 hlength
  have hlt := limbsValue_lt (subLimbs r ((List.range k1).map fun j =>
      if j < LIMBS then modulus.limbs.getD j 0 else 0) 0).1
  have hr' := limbsValue_lt r
  rw [htry] at hlt
  rw [hmod, UInt64.toNat_zero, Nat.add_zero] at hvalue
  simp only [correct]
  rw [blit_take hr, zipWith_ctSelectU64 htry]
  refine ⟨_, rfl, ?_, ?_⟩
  · split
    · rw [htry, hr]
    · exact hr
  · rcases Nat.le_one_iff_eq_zero_or_eq_one.mp hborrow with h | h
    · have hzero := UInt64.toNat_inj.mp (h.trans UInt64.toNat_zero.symm)
      rw [h] at hvalue
      rw [hzero, if_pos (by decide), if_pos (by omega)]
      omega
    · have hone := UInt64.toNat_inj.mp (h.trans UInt64.toNat_one.symm)
      rw [h] at hvalue
      rw [hone, if_neg (by decide), if_neg (by omega)]

private theorem subLimbs_mod {a b : Limbs} (h : a.length = b.length) :
    limbsValue (subLimbs a b 0).1 =
      (limbsValue a + (radix ^ a.length - limbsValue b)) % radix ^ a.length := by
  obtain ⟨hvalue, hborrow⟩ := subLimbs_value h (u := 0) (by simp)
  have hlt := limbsValue_lt (subLimbs a b 0).1
  rw [subLimbs_length _ _ _ h] at hlt
  have hb := limbsValue_lt b
  rw [← h] at hb
  rw [UInt64.toNat_zero, Nat.add_zero] at hvalue
  rcases Nat.le_one_iff_eq_zero_or_eq_one.mp hborrow with h0 | h1
  · rw [h0] at hvalue
    rw [show limbsValue a + (radix ^ a.length - limbsValue b) =
      limbsValue (subLimbs a b 0).1 + radix ^ a.length by omega,
      Nat.add_mod_right, Nat.mod_eq_of_lt hlt]
  · rw [h1] at hvalue
    rw [show limbsValue a + (radix ^ a.length - limbsValue b) =
      limbsValue (subLimbs a b 0).1 by omega, Nat.mod_eq_of_lt hlt]

/-- The quotient estimate on `k + 1` limbs. -/
def estimate (k x mu : Nat) : Nat :=
  x / radix ^ (k - 1) % radix ^ (k + 1) * (mu % radix ^ (k + 1)) / radix ^ (k + 1)

def residue (k m x mu : Nat) : Nat :=
  (x % radix ^ (k + 1) +
    (radix ^ (k + 1) - estimate k x mu * m % radix ^ (k + 1))) % radix ^ (k + 1)

theorem barrettRemainder_value {W k : Nat} {product mu : Limbs}
    {modulus : Uint BITS LIMBS} (hk : 1 ≤ k ∧ k ≤ LIMBS) (hW : 2 * (k + 1) ≤ W)
    (hproduct : 2 * k ≤ product.length) (hmu : k + 1 ≤ mu.length)
    (hm : modulus.value < radix ^ k) :
    limbsValue (barrettRemainder W product modulus mu k) =
      subtractTwice modulus.value
        (residue k modulus.value (limbsValue product) (limbsValue mu)) := by
  simp only [barrettRemainder, forRange]
  -- Every buffer is a list of `k + 1` limbs followed by zeros.
  obtain ⟨q1, hq1⟩ : ∃ q1, q1 = (product.drop (k - 1)).take (k + 1) := ⟨_, rfl⟩
  have hq1len : q1.length = k + 1 := by
    rw [hq1, List.length_take, List.length_drop]
    omega
  have hmulen : (mu.take (k + 1)).length = k + 1 := List.length_take_of_le hmu
  obtain ⟨q2, hq2⟩ : ∃ q2, q2 = mulLimbs (List.replicate W 0) q1 (mu.take (k + 1)) :=
    ⟨_, rfl⟩
  have hq2len : q2.length = W := by
    rw [hq2, mulLimbs_length (by simp [hq1len, hmulen]; omega),
      List.length_replicate]
  obtain ⟨q3, hq3⟩ : ∃ q3, q3 = (q2.drop (k + 1)).take (k + 1) := ⟨_, rfl⟩
  have hq3len : q3.length = k + 1 := by
    rw [hq3, List.length_take, List.length_drop]
    omega
  have hmlen : (modulus.limbs.take k).length = k := by
    rw [List.length_take, modulus.length_eq]
    omega
  obtain ⟨q3m, hq3m⟩ : ∃ q3m,
      q3m = mulLimbs (List.replicate W 0) q3 (modulus.limbs.take k) := ⟨_, rfl⟩
  have hq3mlen : q3m.length = W := by
    rw [hq3m, mulLimbs_length (by simp [hq3len, hmlen]; omega),
      List.length_replicate]
  have hr1len : (product.take (k + 1)).length = k + 1 := by
    rw [List.length_take]
    omega
  have hr2len : (q3m.take (k + 1)).length = k + 1 := by
    rw [List.length_take]
    omega
  have hrlen := subLimbs_length _ _ 0 (hr1len.trans hr2len.symm)
  rw [hr1len] at hrlen
  have hwide : modulus.value < radix ^ (k + 1) :=
    hm.trans_le (Nat.pow_le_pow_right radix_pos (by omega))
  obtain ⟨s1, hs1, hs1len, hs1value⟩ := correct_value (W := W) hwide hrlen
  obtain ⟨s2, hs2, hs2len, hs2value⟩ := correct_value (W := W) hwide hs1len
  have hq1value : limbsValue q1 =
      limbsValue product / radix ^ (k - 1) % radix ^ (k + 1) := by
    rw [hq1, limbsValue_take, limbsValue_drop]
  have hq2value : limbsValue q2 = limbsValue product / radix ^ (k - 1) %
      radix ^ (k + 1) * (limbsValue mu % radix ^ (k + 1)) := by
    rw [hq2, mulLimbs_zero_value (by rw [hq1len, hmulen]; omega), hq1value,
      limbsValue_take]
  have hq3value : limbsValue q3 = estimate k (limbsValue product)
      (limbsValue mu) := by
    rw [hq3, limbsValue_take, limbsValue_drop, hq2value]
    refine Nat.mod_eq_of_lt ?_
    rw [Nat.div_lt_iff_lt_mul (pow_pos radix_pos _)]
    exact Nat.mul_lt_mul'' (Nat.mod_lt _ (pow_pos radix_pos _))
      (Nat.mod_lt _ (pow_pos radix_pos _))
  have hq3mvalue : limbsValue q3m =
      estimate k (limbsValue product) (limbsValue mu) * modulus.value := by
    have htake : limbsValue (modulus.limbs.take k) = modulus.value := by
      rw [limbsValue_take]
      exact Nat.mod_eq_of_lt hm
    rw [hq3m, mulLimbs_zero_value (by rw [hq3len, hmlen]; omega), hq3value, htake]
  have hrvalue := subLimbs_mod (hr1len.trans hr2len.symm)
  rw [hr1len, limbsValue_take, limbsValue_take, hq3mvalue] at hrvalue
  rw [← hq1, blit_take hq1len, ← hq2, ← hq3, blit_take hq3len, ← hq3m,
    blit_take hr1len, blit_take hr2len, hs1, hs2]
  have htwice : limbsValue s2 = subtractTwice modulus.value
      (limbsValue (subLimbs (product.take (k + 1)) (q3m.take (k + 1)) 0).1) := by
    rw [hs2value, hs1value]
    rfl
  rw [blit_value, htwice, hrvalue, residue]

theorem reduceWideBarrettEffImpl_value {W k : Nat} {product m : Limbs}
    {modulus : Uint BITS LIMBS} (hk : 1 ≤ k ∧ k ≤ LIMBS)
    (hmax : k ≤ MAX_BARRETT_LIMBS) (hW : 2 * (k + 1) ≤ W)
    (hproduct : 2 * k ≤ product.length) (hmu : k + 1 ≤ m.length)
    (hm : modulus.value < radix ^ k) :
    ∃ r, reduceWideBarrettEffImpl W product modulus m k = some r ∧
      r.value = subtractTwice modulus.value
        (residue k modulus.value (limbsValue product) (limbsValue m)) %
          radix ^ k := by
  unfold reduceWideBarrettEffImpl
  rw [dif_pos ⟨hk, hmax, hW, hproduct, hmu⟩]
  refine ⟨_, rfl, ?_⟩
  change limbsValue (blit LIMBS
    ((barrettRemainder W product modulus m k).take k)) = _
  rw [blit_value, limbsValue_take, barrettRemainder_value hk hW hproduct hmu hm]

/-! ## Multiplication -/

private theorem sub_mod_wide {x q R : Nat} (hR : 0 < R) (hq : q ≤ x)
    (hlt : x - q < R) : (x % R + (R - q % R)) % R = x - q := by
  have hqmod := Nat.mod_lt q hR
  have hsum : x % R + (R - q % R) + R * (x / R) + q % R =
      R * (q / R) + (x - q) + R + q % R := by
    have hx := Nat.mod_add_div x R
    have hq' := Nat.mod_add_div q R
    omega
  have hmul := congrArg (· % R) (Nat.add_right_cancel hsum)
  simp only [Nat.add_mul_mod_self_left, Nat.add_mod_right] at hmul
  rw [hmul, Nat.mul_add_mod, Nat.mod_eq_of_lt hlt]

theorem reduce_of_ne {k m x mu : Nat} (hk : 1 ≤ k) (hlow : radix ^ (k - 1) < m)
    (hhigh : m < radix ^ k) (hx : x < radix ^ (2 * k))
    (hmu : mu = radix ^ (2 * k) / m % radix ^ (k + 1)) :
    subtractTwice m (residue k m x mu) % radix ^ k = x % m := by
  have hm : 0 < m := lt_of_le_of_lt (Nat.zero_le _) hlow
  have hprod : radix ^ (2 * k) = radix ^ (k - 1) * radix ^ (k + 1) := by
    rw [← pow_add]
    congr 1
    omega
  have hlowpos : 0 < radix ^ (k - 1) := pow_pos radix_pos _
  have hhighpos : 0 < radix ^ (k + 1) := pow_pos radix_pos _
  have hfit : radix ^ (2 * k) / m < radix ^ (k + 1) := by
    rw [Nat.div_lt_iff_lt_mul hm, hprod, Nat.mul_comm (radix ^ (k + 1))]
    exact Nat.mul_lt_mul_of_pos_right hlow hhighpos
  have hestimate : estimate k x mu =
      quotientEstimate (radix ^ (k - 1)) (radix ^ (k + 1)) m x := by
    have hq1 : x / radix ^ (k - 1) < radix ^ (k + 1) :=
      Nat.div_lt_of_lt_mul (by rwa [← hprod])
    rw [estimate, hmu, Nat.mod_mod, Nat.mod_eq_of_lt hfit, Nat.mod_eq_of_lt hq1,
      hprod, quotientEstimate]
  have hle : quotientEstimate (radix ^ (k - 1)) (radix ^ (k + 1)) m x * m ≤ x :=
    quotientEstimate_mul_le hhighpos
  have hlt := lt_quotientEstimate_mul_add hlowpos hhighpos hlow.le
    (by rwa [← hprod] : x < radix ^ (k - 1) * radix ^ (k + 1))
  have hthree : 3 * m < radix ^ (k + 1) :=
    calc 3 * m < 3 * radix ^ k := by omega
      _ ≤ radix * radix ^ k := Nat.mul_le_mul_right _ (by decide)
      _ = radix ^ (k + 1) := (pow_succ' _ _).symm
  rw [residue, hestimate, sub_mod_wide hhighpos hle (by omega),
    subtractTwice_eq_mod (by omega)]
  have hmod := Nat.mod_lt (x - quotientEstimate (radix ^ (k - 1))
    (radix ^ (k + 1)) m x * m) hm
  rw [Nat.mod_eq_of_lt (hmod.trans hhigh)]
  conv_rhs => rw [← Nat.sub_add_cancel hle, Nat.add_mul_mod_self_right]

theorem reduce_of_eq {k m x mu : Nat} (hk : 1 ≤ k) (hm : m = radix ^ (k - 1))
    (hmu : mu = radix ^ (2 * k) / m % radix ^ (k + 1)) :
    subtractTwice m (residue k m x mu) % radix ^ k =
      (x / m % radix ^ 2 - 2) % radix * m + x % m := by
  have hpos : 0 < m := by
    rw [hm]
    exact pow_pos radix_pos _
  have hzero : mu = 0 := by
    rw [hmu, hm, Nat.pow_div (by omega) radix_pos,
      show 2 * k - (k - 1) = k + 1 by omega, Nat.mod_self]
  have hwide : radix ^ (k + 1) = m * radix ^ 2 := by
    rw [hm, ← pow_add]
    congr 1
    omega
  have hnarrow : radix ^ k = m * radix := by
    rw [hm, ← pow_succ]
    congr 1
    omega
  have hmod := Nat.mod_lt x hpos
  have hresidue : residue k m x mu = x / m % radix ^ 2 * m + x % m := by
    rw [residue, estimate, hzero, Nat.zero_mod, Nat.mul_zero, Nat.zero_div,
      Nat.zero_mul, Nat.zero_mod, Nat.sub_zero, Nat.add_mod_right, Nat.mod_mod,
      hwide, Nat.mod_mul]
    ring
  rw [hresidue, subtractTwice_add_mul hmod, hnarrow, Nat.mod_mul, Nat.mul_comm _ m,
    Nat.mul_add_mod, Nat.mod_mod, Nat.mul_add_div hpos, Nat.div_eq_of_lt hmod,
    Nat.add_zero]
  ring

def product (k : Nat) (x y : Uint BITS LIMBS) : Nat :=
  x.value % radix ^ k * (y.value % radix ^ k)

theorem mulModBarrettImpl_value {d : Bool} {W : Nat}
    {x y modulus : Uint BITS LIMBS} {mu : Limbs} (hm : 0 < modulus.value)
    (hmax : modulus.effLimbs ≤ MAX_BARRETT_LIMBS)
    (hW : 2 * (modulus.effLimbs + 1) ≤ W) (hwidth : LIMBS + 1 ≤ MAX_LIMBS)
    (hmu : modulus.computeMuForBarrett = some mu)
    (hdebug : d → x.value < radix ^ modulus.effLimbs ∧
      y.value < radix ^ modulus.effLimbs) :
    ∃ r, mulModBarrettImpl d W x y modulus mu modulus.effLimbs = some r ∧
      r.value = subtractTwice modulus.value
        (residue modulus.effLimbs modulus.value (product modulus.effLimbs x y)
          (radix ^ (2 * modulus.effLimbs) / modulus.value %
            radix ^ (modulus.effLimbs + 1))) % radix ^ modulus.effLimbs := by
  obtain ⟨-, hlt, hpos, hle⟩ := effLimbs_spec hm
  obtain ⟨mu', hmu', hmulen, hmuvalue⟩ := computeMuForBarrett_value hm hwidth
  obtain rfl := Option.some.inj (hmu.symm.trans hmu')
  have hbits : radix ^ modulus.effLimbs = 2 ^ (modulus.effLimbs * 64) := by
    rw [radix, ← pow_mul]
    congr 1
    omega
  have hguard : d = true → x.bitLen ≤ modulus.effLimbs * 64 ∧
      y.bitLen ≤ modulus.effLimbs * 64 := by
    intro h
    rw [bitLen_le_iff, bitLen_le_iff, ← hbits]
    exact hdebug h
  have hxlen : (x.limbs.take modulus.effLimbs).length = modulus.effLimbs :=
    List.length_take_of_le (by rw [x.length_eq]; exact hle)
  have hylen : (y.limbs.take modulus.effLimbs).length = modulus.effLimbs :=
    List.length_take_of_le (by rw [y.length_eq]; exact hle)
  have hlen := mulLimbs_length (o := List.replicate W 0)
    (a := x.limbs.take modulus.effLimbs) (b := y.limbs.take modulus.effLimbs)
    (by rw [hxlen, hylen, List.length_replicate]; omega)
  have hvalue := mulLimbs_zero_value (w := W)
    (a := x.limbs.take modulus.effLimbs) (b := y.limbs.take modulus.effLimbs)
    (by rw [hxlen, hylen]; omega)
  rw [limbsValue_take, limbsValue_take] at hvalue
  obtain ⟨r, hr, hrvalue⟩ := reduceWideBarrettEffImpl_value (W := W) (m := mu)
    ⟨hpos, hle⟩ hmax hW (by rw [hlen, List.length_replicate]; omega)
    (by rw [hmulen]; omega) hlt
  refine ⟨r, ?_, ?_⟩
  · rw [mulModBarrettImpl, if_pos ⟨⟨hpos, hmax⟩, hW, hguard⟩, mulWideEff,
      if_pos (by omega)]
    exact hr
  · rw [hrvalue, hvalue, hmuvalue]
    rfl

theorem product_lt (k : Nat) (x y : Uint BITS LIMBS) :
    product k x y < radix ^ (2 * k) := by
  rw [Nat.two_mul, pow_add]
  exact Nat.mul_lt_mul'' (Nat.mod_lt _ (pow_pos radix_pos _))
    (Nat.mod_lt _ (pow_pos radix_pos _))

theorem eq_radix_pow_iff {modulus : Uint BITS LIMBS} (hm : 0 < modulus.value) :
    (∃ j, modulus.value = radix ^ j) ↔
      modulus.value = radix ^ (modulus.effLimbs - 1) := by
  obtain ⟨hlow, hhigh, hpos, -⟩ := effLimbs_spec hm
  constructor
  · rintro ⟨j, hj⟩
    rw [hj] at hlow hhigh
    have h1 := (Nat.pow_le_pow_iff_right one_lt_radix).mp hlow
    have h2 := (Nat.pow_lt_pow_iff_right one_lt_radix).mp hhigh
    rw [hj]
    congr 1
    omega
  · exact fun h => ⟨_, h⟩

/-- Barrett multiplication agrees with the bit-serial one exactly when the type
fits the wide product and the modulus is no power of the radix; for such a power
only when the multiples left after two subtractions vanish in the top limb. -/
theorem mulModBarrettW_correct_iff (debug : Bool) (W : Nat)
    (a b modulus : Uint BITS LIMBS) (hm : 0 < modulus.value)
    (hmax : modulus.effLimbs ≤ MAX_BARRETT_LIMBS)
    (hW : 2 * (modulus.effLimbs + 1) ≤ W) (ha : a.value < modulus.value)
    (hb : b.value < modulus.value) :
    (∃ mu r, modulus.computeMuForBarrett = some mu ∧
      mulModBarrettW debug W a b modulus mu = some r ∧
      mulMod a b modulus = some r ∧
      r.value = a.value * b.value % modulus.value) ↔
    LIMBS * 2 ≤ MAX_LIMBS ∧
      ((∀ j, modulus.value ≠ radix ^ j) ∨
        (a.value * b.value / modulus.value % radix ^ 2 - 2) % radix = 0) := by
  by_cases hwide : LIMBS * 2 ≤ MAX_LIMBS
  swap
  · constructor
    · rintro ⟨mu, r, -, -, hmul, -⟩
      simp [mulMod, mulWideInternal, hwide] at hmul
    · rintro ⟨h, -⟩
      exact absurd h hwide
  obtain ⟨hlow, hhigh, hpos, hle⟩ := effLimbs_spec hm
  have hwidth : LIMBS + 1 ≤ MAX_LIMBS := by
    unfold MAX_LIMBS at *
    omega
  obtain ⟨mu, hmu, -, -⟩ := computeMuForBarrett_value hm hwidth
  obtain ⟨reference, hreference, hrefvalue⟩ :=
    mulMod_value (x := a) (y := b) hwide hm
  have hproduct : product modulus.effLimbs a b = a.value * b.value := by
    rw [product, Nat.mod_eq_of_lt (ha.trans hhigh), Nat.mod_eq_of_lt (hb.trans hhigh)]
  have hlt := product_lt modulus.effLimbs a b
  obtain ⟨r, hr, hrvalue⟩ := mulModBarrettImpl_value (d := debug) (x := a)
    (y := b) hm hmax hW hwidth hmu (fun _ => ⟨ha.trans hhigh, hb.trans hhigh⟩)
  rw [hproduct] at hrvalue hlt
  have hiff : (∃ mu r, modulus.computeMuForBarrett = some mu ∧
      mulModBarrettW debug W a b modulus mu = some r ∧
      mulMod a b modulus = some r ∧
      r.value = a.value * b.value % modulus.value) ↔
      r.value = a.value * b.value % modulus.value := by
    constructor
    · rintro ⟨mu', r', hmu', hr', -, hvalue⟩
      obtain rfl := Option.some.inj (hmu.symm.trans hmu')
      obtain rfl := Option.some.inj (hr.symm.trans hr')
      exact hvalue
    · intro hvalue
      obtain rfl := value_inj (hvalue.trans hrefvalue.symm)
      exact ⟨mu, r, hmu, hr, hreference, hvalue⟩
  rw [hiff, hrvalue]
  by_cases hpower : ∃ j, modulus.value = radix ^ j
  · rw [reduce_of_eq hpos ((eq_radix_pow_iff hm).mp hpower) rfl]
    obtain ⟨j, hj⟩ := hpower
    constructor
    · intro heq
      refine ⟨hwide, .inr ?_⟩
      have hzero := Nat.add_eq_right.mp heq
      exact (Nat.mul_eq_zero.mp hzero).resolve_right (by omega)
    · rintro ⟨-, h | h⟩
      · exact absurd hj (h j)
      · rw [h, Nat.zero_mul, Nat.zero_add]
  · have hne : modulus.value ≠ radix ^ (modulus.effLimbs - 1) := fun h =>
      hpower ⟨_, h⟩
    rw [reduce_of_ne hpos (by omega) hhigh hlt rfl]
    exact ⟨fun _ => ⟨hwide, .inl fun j hj => hpower ⟨j, hj⟩⟩, fun _ => rfl⟩

theorem mulModBarrettW_correct_iff_seven :
    ∃ mu r, (⟨[7], rfl⟩ : Uint 64 1).computeMuForBarrett = some mu ∧
      mulModBarrettW true 4 ⟨[5], rfl⟩ ⟨[6], rfl⟩ ⟨[7], rfl⟩ mu = some r ∧
      mulMod (⟨[5], rfl⟩ : Uint 64 1) ⟨[6], rfl⟩ ⟨[7], rfl⟩ = some r ∧
      r.value = 5 * 6 % 7 :=
  (mulModBarrettW_correct_iff true 4 ⟨[5], rfl⟩ ⟨[6], rfl⟩ ⟨[7], rfl⟩
    (by decide) (by decide) (by decide) (by decide) (by decide)).mpr
    ⟨by decide, .inl fun j hj => by
      have hone := (eq_radix_pow_iff (by decide)).mp ⟨j, hj⟩
      exact absurd hone (by decide)⟩

/-- Modulus `2 ^ 64`: the reciprocal is cut to zero and two multiples of the
modulus stay in the result of `2 ^ 33 * 2 ^ 33`. -/
theorem mulModBarrettW_radix_modulus :
    (do
      let mu ← (⟨[0, 1], rfl⟩ : Uint 128 2).computeMuForBarrett
      mulModBarrettW true 6 ⟨[8589934592, 0], rfl⟩ ⟨[8589934592, 0], rfl⟩
        ⟨[0, 1], rfl⟩ mu) = some (⟨[0, 2], rfl⟩ : Uint 128 2) ∧
    mulMod (⟨[8589934592, 0], rfl⟩ : Uint 128 2) ⟨[8589934592, 0], rfl⟩
      ⟨[0, 1], rfl⟩ = some ⟨[0, 0], rfl⟩ := by
  let a : Uint 128 2 := ⟨[8589934592, 0], rfl⟩
  let m : Uint 128 2 := ⟨[0, 1], rfl⟩
  have hm : 0 < m.value := by decide
  have heff : m.effLimbs = 2 := by decide
  have hfits : a.value < radix ^ m.effLimbs := by decide
  obtain ⟨mu, hmu, -, -⟩ := computeMuForBarrett_value hm (by decide)
  obtain ⟨r, hr, hvalue⟩ := mulModBarrettImpl_value (d := true) (W := 6) (x := a) (y := a)
    hm (by decide) (by decide) (by decide) hmu fun _ => ⟨hfits, hfits⟩
  have htwice : r.value = (⟨[0, 2], rfl⟩ : Uint 128 2).value := by
    rw [hvalue, heff]
    decide
  obtain ⟨s, hs, hzero⟩ := mulMod_value (x := a) (y := a) (by decide) hm
  have hnone : s.value = (⟨[0, 0], rfl⟩ : Uint 128 2).value := by
    rw [hzero]
    decide
  constructor
  · apply (congrArg (fun found => found >>= mulModBarrettW true 6 a a m) hmu).trans
    exact hr.trans (congrArg some (value_inj htwice))
  · exact hs.trans (congrArg some (value_inj hnone))

end Uint

end Stdx.BigNumber
