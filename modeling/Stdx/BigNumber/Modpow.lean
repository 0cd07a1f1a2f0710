import Stdx.BigNumber.Barrett

/-!
# Modular exponentiation

Square and multiply over any multiplication that is right modulo `m`, then the
two exponentiations of the source.  Both start the result at one, so exponent
zero is never reduced; the Barrett one also reads only the low `effLimbs` limbs
of the base.
-/

namespace Stdx.BigNumber

open Stdx.Foundation

namespace Uint

variable {BITS LIMBS : Nat}

section Ladder

/-- A multiplication modulo `m` on the operands it is good for. -/
structure MulSpec (mul : Uint BITS LIMBS → Uint BITS LIMBS → Option (Uint BITS LIMBS))
    (m : Nat) (Good : Uint BITS LIMBS → Prop) : Prop where
  spec : ∀ x y, Good x → Good y →
    ∃ r, mul x y = some r ∧ Good r ∧ r.value = x.value * y.value % m

variable {mul : Uint BITS LIMBS → Uint BITS LIMBS → Option (Uint BITS LIMBS)}
  {m : Nat} {Good : Uint BITS LIMBS → Prop} {exp base result : Uint BITS LIMBS}

/-- After `i` exponent bits; the last square is not taken. -/
structure PowInv (m : Nat) (Good : Uint BITS LIMBS → Prop)
    (exp base result : Uint BITS LIMBS) (i : Nat) (b r : Uint BITS LIMBS) :
    Prop where
  base_good : Good b
  result_good : Good r
  base_eq : i < exp.bitLen → b.value % m = base.value ^ 2 ^ i % m
  result_eq : r.value % m =
    result.value * base.value ^ (exp.value % 2 ^ i) % m
  result_lt : exp.value % 2 ^ i ≠ 0 → r.value < m

theorem PowInv.step (hmul : MulSpec mul m Good) (hm : 0 < m)
    (hexp : exp.value < 2 ^ BITS) {i : Nat} {b r : Uint BITS LIMBS}
    (hi : i < exp.bitLen) (h : PowInv m Good exp base result i b r) :
    ∃ b' r', powStep mul exp i (b, r) = some (b', r') ∧
      PowInv m Good exp base result (i + 1) b' r' := by
  have hbits : exp.bitLen ≤ BITS := (bitLen_le_iff exp BITS).mpr hexp
  have hbase := h.base_eq hi
  obtain ⟨square, hsquare, hgood, hvalue⟩ := hmul.spec b b h.base_good h.base_good
  -- The base after this bit, whether or not it is squared once more.
  obtain ⟨b', hb', hb'good, hb'eq⟩ : ∃ b',
      (if i + 1 < exp.bitLen then mul b b else some b) = some b' ∧ Good b' ∧
      (i + 1 < exp.bitLen → b'.value % m = base.value ^ 2 ^ (i + 1) % m) := by
    by_cases hnext : i + 1 < exp.bitLen
    · refine ⟨square, by rw [if_pos hnext, hsquare], hgood, fun _ => ?_⟩
      rw [hvalue, Nat.mod_mod, Nat.mul_mod, hbase, ← Nat.mul_mod, ← pow_add,
        pow_succ, Nat.mul_two]
    · exact ⟨b, by rw [if_neg hnext], h.base_good, fun hlt => absurd hlt hnext⟩
  have hsplit : exp.value % 2 ^ (i + 1) =
      exp.value % 2 ^ i + 2 ^ i * (exp.value.testBit i).toNat := by
    rw [Nat.mod_pow_succ, Nat.toNat_testBit]
  have hbit := bit_eq_testBit (x := exp) (by omega : i < BITS)
  by_cases hset : exp.value.testBit i = true
  · obtain ⟨r', hr', hr'good, hr'value⟩ :=
      hmul.spec r b h.result_good h.base_good
    rw [hset, Bool.toNat_true, Nat.mul_one] at hsplit
    refine ⟨b', r', ?_, hb'good, hr'good, hb'eq, ?_, fun _ => ?_⟩
    · simp only [powStep, hbit, hset, if_true, hr', Option.bind_some, hb']
      rfl
    · rw [hr'value, Nat.mod_mod, hsplit, Nat.mul_mod, h.result_eq, hbase,
        ← Nat.mul_mod, Nat.mul_assoc, ← pow_add]
    · rw [hr'value]
      exact Nat.mod_lt _ hm
  · rw [Bool.not_eq_true] at hset
    rw [hset, Bool.toNat_false, Nat.mul_zero, Nat.add_zero] at hsplit
    refine ⟨b', r, ?_, hb'good, h.result_good, hb'eq, ?_, ?_⟩
    · simp only [powStep, hbit, hset, Bool.false_eq_true, if_false,
        Option.bind_some, hb']
      rfl
    · rw [hsplit]
      exact h.result_eq
    · rw [hsplit]
      exact h.result_lt

theorem powLoop_value {u v : Uint BITS LIMBS} (hmul : MulSpec mul m Good) (hm : 0 < m)
    (hexp : exp.value < 2 ^ BITS) (hbase : Good u) (hresult : Good v) :
    ∃ b r, powLoop mul exp u v = some (b, r) ∧
      r.value % m = v.value * u.value ^ exp.value % m ∧
      (exp.value = 0 → r = v) ∧ (exp.value ≠ 0 → r.value < m) := by
  have hstart : ∃ b r, some (u, v) = some (b, r) ∧
      PowInv m Good exp u v 0 b r := by
    refine ⟨u, v, rfl, hbase, hresult, ?_, ?_, ?_⟩
    · simp
    · simp [Nat.mod_one]
    · simp [Nat.mod_one]
  have hrun := forRange_rule (l := 0) (n := exp.bitLen)
    (f := fun i s => s.bind (powStep mul exp i))
    (I := fun i s => ∃ b r, s = some (b, r) ∧ PowInv m Good exp u v i b r)
    (fun i s _ hi hs => by
      obtain ⟨b, r, rfl, hinv⟩ := hs
      exact hinv.step hmul hm hexp (by omega))
    hstart
  obtain ⟨b, r, heq, hinv⟩ := hrun
  have hfull : exp.value % 2 ^ (0 + exp.bitLen) = exp.value := by
    rw [Nat.zero_add]
    exact Nat.mod_eq_of_lt ((bitLen_le_iff exp _).mp le_rfl)
  have hresult := hinv.result_eq
  have hlt := hinv.result_lt
  rw [hfull] at hresult hlt
  refine ⟨b, r, heq, hresult, fun hzero => ?_, hlt⟩
  have hnone : exp.bitLen = 0 := by
    rw [bitLen_eq, if_pos hzero]
  rw [hnone] at heq
  exact (Prod.mk.inj (Option.some.inj heq)).2.symm

end Ladder

theorem modpow_value {u exp modulus : Uint BITS LIMBS}
    (hwide : LIMBS * 2 ≤ MAX_LIMBS) (hm : 0 < modulus.value)
    (hexp : exp.value < 2 ^ BITS) :
    ∃ r, modpow u exp modulus = some r ∧
      r.value = if exp.value = 0 then 1
        else u.value ^ exp.value % modulus.value := by
  obtain ⟨-, -, hpos, hle⟩ := effLimbs_spec hm
  have hone : (ONE : Uint BITS LIMBS).value = 1 := ONE_value (by omega)
  have hspec : MulSpec (fun x y : Uint BITS LIMBS => mulMod x y modulus)
      modulus.value (fun _ => True) := by
    refine ⟨fun x y _ _ => ?_⟩
    obtain ⟨r, hr, hvalue⟩ := mulMod_value (x := x) (y := y) hwide hm
    exact ⟨r, hr, trivial, hvalue⟩
  obtain ⟨reduced, hreduced, -, hreducedvalue⟩ :=
    hspec.spec u ONE trivial trivial
  obtain ⟨b, r, hloop, hvalue, hzero, hlt⟩ := powLoop_value (u := reduced)
    (v := ONE) hspec hm hexp trivial trivial
  refine ⟨r, by simp [modpow, hreduced, hloop], ?_⟩
  split
  · next h => rw [hzero h, hone]
  · next h =>
    rw [hone, Nat.mul_one] at hreducedvalue
    rw [hone, Nat.one_mul, hreducedvalue, Nat.mod_eq_of_lt (hlt h)] at hvalue
    rw [hvalue, ← Nat.pow_mod]

section BarrettPower

variable {debug : Bool} {base exp modulus : Uint BITS LIMBS} {mu : Limbs}

theorem ONE_lt_radix_pow (hm : 0 < modulus.value) :
    (ONE : Uint BITS LIMBS).value < radix ^ modulus.effLimbs := by
  obtain ⟨-, -, hpos, hle⟩ := effLimbs_spec hm
  rw [ONE_value (by omega)]
  exact Nat.one_lt_pow (by omega) one_lt_radix

theorem mulSpec_barrett {d : Bool} {W : Nat} (hm : 0 < modulus.value)
    (hmax : modulus.effLimbs ≤ MAX_BARRETT_LIMBS)
    (hW : 2 * (modulus.effLimbs + 1) ≤ W) (hwidth : LIMBS + 1 ≤ MAX_LIMBS)
    (hmu : modulus.computeMuForBarrett = some mu)
    (hpower : ∀ j, modulus.value ≠ radix ^ j) :
    MulSpec (fun x y => mulModBarrettImpl d W x y modulus mu
      modulus.effLimbs) modulus.value
      (fun x => x.value < radix ^ modulus.effLimbs) := by
  obtain ⟨hlow, hhigh, hpos, -⟩ := effLimbs_spec hm
  refine ⟨fun x y hx hy => ?_⟩
  obtain ⟨r, hr, hvalue⟩ := mulModBarrettImpl_value (d := d) (x := x)
    (y := y) hm hmax hW hwidth hmu (fun _ => ⟨hx, hy⟩)
  have hne := hpower (modulus.effLimbs - 1)
  rw [reduce_of_ne hpos (by omega) hhigh (product_lt _ x y) rfl, product,
    Nat.mod_eq_of_lt hx, Nat.mod_eq_of_lt hy] at hvalue
  refine ⟨r, hr, ?_, hvalue⟩
  rw [hvalue]
  exact (Nat.mod_lt _ hm).trans hhigh

theorem modpowBarrett_debug (hbase : ¬ base.value < radix ^ modulus.effLimbs) :
    modpowBarrett true base exp modulus mu = none := by
  have hbits : radix ^ modulus.effLimbs = 2 ^ (modulus.effLimbs * 64) := by
    rw [radix, ← pow_mul]
    congr 1
    omega
  have hlong : ¬ base.bitLen ≤ modulus.effLimbs * 64 := by
    rw [bitLen_le_iff, ← hbits]
    exact hbase
  simp [modpowBarrett, modpowBarrettW, modpowBarrettImpl, mulModBarrettImpl, hlong]

theorem modpowBarrett_zero (hm : 0 < modulus.value)
    (hmax : modulus.effLimbs ≤ MAX_BARRETT_LIMBS) (hwidth : LIMBS + 1 ≤ MAX_LIMBS)
    (hmu : modulus.computeMuForBarrett = some mu)
    (hdebug : debug → base.value < radix ^ modulus.effLimbs)
    (hexp : exp.value = 0) :
    modpowBarrett debug base exp modulus mu = some ONE := by
  obtain ⟨-, -, hpos, -⟩ := effLimbs_spec hm
  have hW : 2 * (modulus.effLimbs + 1) ≤ MAX_LIMBS := by
    unfold MAX_BARRETT_LIMBS MAX_LIMBS at *
    omega
  have hnone : exp.bitLen = 0 := by
    rw [bitLen_eq, if_pos hexp]
  obtain ⟨r, hr, -⟩ := mulModBarrettImpl_value (d := debug) (x := base)
    (y := ONE) hm hmax hW hwidth hmu
    (fun h => ⟨hdebug h, ONE_lt_radix_pow hm⟩)
  simp [modpowBarrett, modpowBarrettW, modpowBarrettImpl, hpos, hmax, hW, hr,
    powLoop, hnone]

theorem modpowBarrettW_value {W : Nat} (hm : 0 < modulus.value)
    (hmax : modulus.effLimbs ≤ MAX_BARRETT_LIMBS)
    (hW : 2 * (modulus.effLimbs + 1) ≤ W) (hwidth : LIMBS + 1 ≤ MAX_LIMBS)
    (hmu : modulus.computeMuForBarrett = some mu)
    (hpower : ∀ j, modulus.value ≠ radix ^ j) (hexp : exp.value < 2 ^ BITS)
    (hdebug : debug → base.value < radix ^ modulus.effLimbs) :
    ∃ r, modpowBarrettW debug W base exp modulus mu = some r ∧
      r.value = (base.value % radix ^ modulus.effLimbs) ^ exp.value %
        modulus.value := by
  obtain ⟨hlow, hhigh, hpos, hle⟩ := effLimbs_spec hm
  have hone : (ONE : Uint BITS LIMBS).value = 1 := ONE_value (by omega)
  have honelt := ONE_lt_radix_pow hm
  have hspec := mulSpec_barrett (d := debug) hm hmax hW hwidth hmu hpower
  obtain ⟨reduced, hreduced, hreducedvalue⟩ := mulModBarrettImpl_value
    (d := debug) (x := base) (y := ONE) hm hmax hW hwidth hmu
    (fun h => ⟨hdebug h, honelt⟩)
  have hne := hpower (modulus.effLimbs - 1)
  have hgt : 1 < modulus.value := by
    have := hpower 0
    rw [pow_zero] at this
    omega
  rw [reduce_of_ne hpos (by omega) hhigh (product_lt _ base ONE) rfl, product,
    Nat.mod_eq_of_lt honelt, hone, Nat.mul_one] at hreducedvalue
  have hfits : reduced.value < radix ^ modulus.effLimbs := by
    rw [hreducedvalue]
    exact (Nat.mod_lt _ hm).trans hhigh
  obtain ⟨b, r, hloop, hvalue, hzero, hlt⟩ := powLoop_value (u := reduced)
    (v := ONE) hspec hm hexp hfits honelt
  refine ⟨r, by simp [modpowBarrettW, modpowBarrettImpl, hpos, hmax,
    hW, hreduced, hloop], ?_⟩
  rw [hone, Nat.one_mul, hreducedvalue, ← Nat.pow_mod] at hvalue
  rw [← hvalue]
  by_cases h : exp.value = 0
  · rw [hzero h, hone, Nat.mod_eq_of_lt hgt]
  · rw [Nat.mod_eq_of_lt (hlt h)]

theorem modpowBarrett_value (hm : 0 < modulus.value)
    (hmax : modulus.effLimbs ≤ MAX_BARRETT_LIMBS) (hwidth : LIMBS + 1 ≤ MAX_LIMBS)
    (hmu : modulus.computeMuForBarrett = some mu)
    (hpower : ∀ j, modulus.value ≠ radix ^ j) (hexp : exp.value < 2 ^ BITS)
    (hdebug : debug → base.value < radix ^ modulus.effLimbs) :
    ∃ r, modpowBarrett debug base exp modulus mu = some r ∧
      r.value = (base.value % radix ^ modulus.effLimbs) ^ exp.value %
        modulus.value := by
  apply modpowBarrettW_value hm hmax _ hwidth hmu hpower hexp hdebug
  unfold MAX_BARRETT_LIMBS MAX_LIMBS at *
  omega

end BarrettPower

/-- Both exponentiations return, and return the power of naturals. -/
def ModpowAgrees (debug : Bool) (base exp modulus : Uint BITS LIMBS) : Prop :=
  ∃ mu r, modulus.computeMuForBarrett = some mu ∧
    modpowBarrett debug base exp modulus mu = some r ∧
    modpow base exp modulus = some r ∧
    r.value = base.value ^ exp.value % modulus.value

/-- The type fits the wide product, no debug assertion fires, and either the
exponent is zero and the modulus is not one, or the modulus is no power of the
radix and cutting the base to its limbs does not change the power. -/
def ModpowCovered (debug : Bool) (base exp modulus : Uint BITS LIMBS) : Prop :=
  LIMBS * 2 ≤ MAX_LIMBS ∧
    (debug = true → base.value < radix ^ modulus.effLimbs) ∧
    (exp.value = 0 ∧ modulus.value ≠ 1 ∨
      (∀ j, modulus.value ≠ radix ^ j) ∧
        (base.value % radix ^ modulus.effLimbs) ^ exp.value ≡
          base.value ^ exp.value [MOD modulus.value])

/-- The condition is enough, and it is exact but for a nonzero exponent over a
power of the radix, where the reciprocal is cut to zero. -/
theorem modpowBarrett_correct (debug : Bool) (base exp modulus : Uint BITS LIMBS)
    (hm : 0 < modulus.value) (hmax : modulus.effLimbs ≤ MAX_BARRETT_LIMBS)
    (hexp : exp.value < 2 ^ BITS) :
    (ModpowCovered debug base exp modulus → ModpowAgrees debug base exp modulus) ∧
    (exp.value = 0 ∨ (∀ j, modulus.value ≠ radix ^ j) →
      ModpowAgrees debug base exp modulus →
        ModpowCovered debug base exp modulus) := by
  have hmaxwidth : LIMBS * 2 ≤ MAX_LIMBS → LIMBS + 1 ≤ MAX_LIMBS := by
    unfold MAX_LIMBS
    omega
  constructor
  · rintro ⟨hwide, hdebug, hcases⟩
    obtain ⟨mu, hmu, -, -⟩ := computeMuForBarrett_value hm (hmaxwidth hwide)
    obtain ⟨r, hr, hvalue⟩ := modpow_value (u := base) hwide hm hexp
    rcases hcases with ⟨hzero, hne⟩ | ⟨hpower, hcut⟩
    · rw [if_pos hzero] at hvalue
      obtain ⟨-, -, hpos, hle⟩ := effLimbs_spec hm
      obtain rfl := value_inj (hvalue.trans
        (ONE_value (by omega : 0 < LIMBS)).symm)
      refine ⟨mu, ONE, hmu,
        modpowBarrett_zero hm hmax (hmaxwidth hwide) hmu hdebug hzero, hr, ?_⟩
      rw [hvalue, hzero, pow_zero, Nat.mod_eq_of_lt (by omega)]
    · obtain ⟨r', hr', hvalue'⟩ := modpowBarrett_value hm hmax (hmaxwidth hwide)
        hmu hpower hexp hdebug
      have hgt : 1 < modulus.value := by
        have := hpower 0
        rw [pow_zero] at this
        omega
      have hpow : r.value = base.value ^ exp.value % modulus.value := by
        rw [hvalue]
        split
        · next hzero => rw [hzero, pow_zero, Nat.mod_eq_of_lt hgt]
        · rfl
      have hsame : r'.value = r.value := by rw [hvalue', hpow, hcut]
      obtain rfl := value_inj hsame
      exact ⟨mu, r', hmu, hr', hr, hpow⟩
  · rintro hexact ⟨mu, r, hmu, hbarrett, hserial, hvalue⟩
    have hwide : LIMBS * 2 ≤ MAX_LIMBS := by
      by_contra hwide
      simp [modpow, mulMod, mulWideInternal, hwide] at hserial
    have hdebug : debug = true → base.value < radix ^ modulus.effLimbs := by
      rintro rfl
      by_contra hbase
      rw [modpowBarrett_debug hbase] at hbarrett
      simp at hbarrett
    refine ⟨hwide, hdebug, ?_⟩
    by_cases hpower : ∀ j, modulus.value ≠ radix ^ j
    · obtain ⟨r', hr', hvalue'⟩ := modpowBarrett_value hm hmax (hmaxwidth hwide)
        hmu hpower hexp hdebug
      obtain rfl := Option.some.inj (hbarrett.symm.trans hr')
      exact .inr ⟨hpower, hvalue'.symm.trans hvalue⟩
    · have hzero := hexact.resolve_right hpower
      refine .inl ⟨hzero, fun hone => ?_⟩
      obtain ⟨r', hr', hvalue'⟩ := modpow_value (u := base) hwide hm hexp
      obtain rfl := Option.some.inj (hserial.symm.trans hr')
      rw [if_pos hzero] at hvalue'
      rw [hvalue', hone, Nat.mod_one] at hvalue
      exact absurd hvalue (by decide)

theorem modpowBarrett_correct_seven :
    ModpowAgrees true (⟨[5], rfl⟩ : Uint 64 1) ⟨[6], rfl⟩ ⟨[7], rfl⟩ :=
  (modpowBarrett_correct true ⟨[5], rfl⟩ ⟨[6], rfl⟩ ⟨[7], rfl⟩ (by decide)
    (by decide) (by decide)).1
    ⟨by decide, fun _ => by decide, .inr ⟨fun j hj => by
      have hone := (eq_radix_pow_iff (by decide)).mp ⟨j, hj⟩
      exact absurd hone (by decide), by decide⟩⟩

/-- A base of two limbs over a modulus of one: only the low limb is read. -/
theorem modpowBarrett_wide_base :
    (do
      let mu ← (⟨[5, 0], rfl⟩ : Uint 128 2).computeMuForBarrett
      modpowBarrett false ⟨[0, 1], rfl⟩ ⟨[1, 0], rfl⟩ ⟨[5, 0], rfl⟩ mu) =
        some (⟨[0, 0], rfl⟩ : Uint 128 2) ∧
    modpow (⟨[0, 1], rfl⟩ : Uint 128 2) ⟨[1, 0], rfl⟩ ⟨[5, 0], rfl⟩ =
      some ⟨[1, 0], rfl⟩ := by
  let base : Uint 128 2 := ⟨[0, 1], rfl⟩
  let exp : Uint 128 2 := ⟨[1, 0], rfl⟩
  let m : Uint 128 2 := ⟨[5, 0], rfl⟩
  have hm : 0 < m.value := by decide
  have heff : m.effLimbs = 1 := by decide
  have hexp : exp.value < 2 ^ 128 := by decide
  have hpower : ∀ j, m.value ≠ radix ^ j := fun j hj => by
    have hone := (eq_radix_pow_iff hm).mp ⟨j, hj⟩
    exact absurd hone (by decide)
  obtain ⟨mu, hmu, -, -⟩ := computeMuForBarrett_value hm (by decide)
  have hbarrett : ∃ r, modpowBarrett false base exp m mu = some r ∧
      r.value = (base.value % radix ^ m.effLimbs) ^ exp.value % m.value :=
    modpowBarrett_value hm (by decide) (by decide) hmu hpower hexp (by simp)
  obtain ⟨r, hr, hvalue⟩ := hbarrett
  have hzero : r.value = (⟨[0, 0], rfl⟩ : Uint 128 2).value := by
    rw [hvalue, heff]
    decide
  obtain ⟨s, hs, hpow⟩ := modpow_value (u := base) (by decide) hm hexp
  have hone : s.value = (⟨[1, 0], rfl⟩ : Uint 128 2).value := by
    rw [hpow]
    decide
  constructor
  · apply (congrArg (fun found => found >>= modpowBarrett false base exp m) hmu).trans
    exact hr.trans (congrArg some (value_inj hzero))
  · exact hs.trans (congrArg some (value_inj hone))

end Uint

end Stdx.BigNumber
