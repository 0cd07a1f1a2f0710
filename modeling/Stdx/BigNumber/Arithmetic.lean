import Stdx.BigNumber.Uint

/-!
# Values of the carry chains

Every chain conserves the value of its operands: what it drops is the carry it
returns.  Modular addition, subtraction and the bit-serial reduction follow from
one conditional subtraction.
-/

namespace Stdx.BigNumber

open Stdx.Foundation

/-! ## Words -/

theorem adc_value (a b carry : UInt64) :
    (adc a b carry).1.toNat + radix * (adc a b carry).2.toNat =
      a.toNat + b.toNat + carry.toNat := by
  have ha := toNat_lt_radix a
  have hb := toNat_lt_radix b
  have hc := toNat_lt_radix carry
  simp only [adc, toNat_ofNat_radix]
  rw [Nat.mod_eq_of_lt (a := _ / radix)]
  · exact Nat.mod_add_div _ _
  · unfold radix at *
    omega

theorem mac_value (acc a b carry : UInt64) :
    (mac acc a b carry).1.toNat + radix * (mac acc a b carry).2.toNat =
      acc.toNat + a.toNat * b.toNat + carry.toNat := by
  have hacc := toNat_lt_radix acc
  have ha := toNat_lt_radix a
  have hb := toNat_lt_radix b
  have hc := toNat_lt_radix carry
  have hprod : a.toNat * b.toNat ≤ (radix - 1) * (radix - 1) :=
    Nat.mul_le_mul (by omega) (by omega)
  simp only [mac, toNat_ofNat_radix]
  rw [Nat.mod_eq_of_lt (a := _ / radix)]
  · exact Nat.mod_add_div _ _
  · rw [Nat.div_lt_iff_lt_mul radix_pos]
    unfold radix at *
    omega

theorem sbb_value (a b : UInt64) {borrow : UInt64} (hborrow : borrow.toNat ≤ 1) :
    (sbb a b borrow).1.toNat + b.toNat + borrow.toNat =
        a.toNat + radix * (sbb a b borrow).2.toNat ∧
      (sbb a b borrow).2.toNat ≤ 1 := by
  have ha := toNat_lt_radix a
  have hb := toNat_lt_radix b
  simp only [sbb, toNat_ofNat_radix]
  generalize hdiff : radix + a.toNat - b.toNat - borrow.toNat = diff
  have hsum : diff + b.toNat + borrow.toNat = radix + a.toNat := by omega
  rcases Nat.lt_or_ge diff radix with h | h
  · rw [Nat.div_eq_of_lt h, Nat.mod_eq_of_lt h]
    have hone : (1 - UInt64.ofNat 0).toNat = 1 := by decide
    rw [hone]
    omega
  · have hdiv : diff / radix = 1 := by
      rw [Nat.div_eq_iff radix_pos]
      omega
    have hmod := Nat.mod_add_div diff radix
    have hzero : (1 - UInt64.ofNat 1).toNat = 0 := by decide
    rw [hdiv, hzero]
    rw [hdiv] at hmod
    omega

theorem ctSelectU64_eq (a b : UInt64) (choice : Bool) :
    ctSelectU64 a b choice = if choice then a else b := by
  cases choice with
  | false =>
    have hmask : (0 - (0 : UInt64)) = 0 := by decide
    simp [ctSelectU64]
  | true =>
    have hmask : (0 - (1 : UInt64)) = -1 := by decide
    simp only [ctSelectU64, if_true, hmask]
    rw [UInt64.and_neg_one, UInt64.xor_comm a b, ← UInt64.xor_assoc,
      UInt64.xor_self, UInt64.zero_xor]

theorem zipWith_ctSelectU64 {a b : Limbs} (h : a.length = b.length)
    (choice : Bool) :
    List.zipWith (fun x y => ctSelectU64 x y choice) a b =
      if choice then a else b := by
  induction a generalizing b with
  | nil =>
    cases b with
    | nil => simp
    | cons y ys => simp at h
  | cons x xs ih =>
    cases b with
    | nil => simp at h
    | cons y ys =>
      rw [List.zipWith_cons_cons, ih (by simpa using h), ctSelectU64_eq]
      cases choice <;> rfl

/-! ## Chains -/

theorem addLimbs_value {a b : Limbs} (h : a.length = b.length) (carry : UInt64) :
    limbsValue (addLimbs a b carry).1 +
        radix ^ a.length * (addLimbs a b carry).2.toNat =
      limbsValue a + limbsValue b + carry.toNat := by
  induction a generalizing b carry with
  | nil =>
    cases b with
    | nil => simp [addLimbs]
    | cons y ys => simp at h
  | cons x xs ih =>
    cases b with
    | nil => simp at h
    | cons y ys =>
      have hword := adc_value x y carry
      have hrest := ih (b := ys) (by simpa using h) (adc x y carry).2
      simp only [addLimbs, limbsValue_cons, List.length_cons, pow_succ]
      linear_combination hword + radix * hrest

theorem subLimbs_value {a b : Limbs} (h : a.length = b.length) {u : UInt64}
    (hborrow : u.toNat ≤ 1) :
    limbsValue (subLimbs a b u).1 + limbsValue b + u.toNat =
        limbsValue a + radix ^ a.length * (subLimbs a b u).2.toNat ∧
      (subLimbs a b u).2.toNat ≤ 1 := by
  induction a generalizing b u with
  | nil =>
    cases b with
    | nil => simpa [subLimbs] using hborrow
    | cons y ys => simp at h
  | cons x xs ih =>
    cases b with
    | nil => simp at h
    | cons y ys =>
      obtain ⟨hword, hle⟩ := sbb_value x y hborrow
      obtain ⟨hrest, hlast⟩ := ih (b := ys) (by simpa using h) hle
      simp only [subLimbs, limbsValue_cons, List.length_cons, pow_succ]
      exact ⟨by linear_combination hword + radix * hrest, hlast⟩

private theorem shifted_word (word : UInt64) {carry : UInt64}
    (hcarry : carry.toNat ≤ 1) :
    ((word <<< 1) ||| carry).toNat + radix * (word >>> 63).toNat =
        2 * word.toNat + carry.toNat ∧ (word >>> 63).toNat ≤ 1 := by
  have hword := toNat_lt_radix word
  have hshift : (word >>> 63).toNat = word.toNat / 2 ^ 63 := by
    simp [Nat.shiftRight_eq_div_pow]
  have hleft : (word <<< 1).toNat = 2 * (word.toNat % 2 ^ 63) := by
    simp only [UInt64.toNat_shiftLeft]
    simp only [UInt64.toNat_one, Nat.one_mod, Nat.shiftLeft_eq, pow_one]
    omega
  have hor : ((word <<< 1) ||| carry).toNat =
      (word <<< 1).toNat + carry.toNat := by
    rw [UInt64.toNat_or, hleft, ← pow_one 2,
      ← Nat.two_pow_add_eq_or_of_lt (by omega : carry.toNat < 2 ^ 1)]
  rw [hor, hshift, hleft]
  unfold radix at *
  omega

theorem shiftLimbs_value (words : Limbs) {carry : UInt64}
    (hcarry : carry.toNat ≤ 1) :
    limbsValue (shiftLimbs words carry).1 +
        radix ^ words.length * (shiftLimbs words carry).2.toNat =
          2 * limbsValue words + carry.toNat ∧
      (shiftLimbs words carry).2.toNat ≤ 1 := by
  induction words generalizing carry with
  | nil => simpa [shiftLimbs] using hcarry
  | cons word words ih =>
    obtain ⟨hword, hle⟩ := shifted_word word hcarry
    obtain ⟨hrest, hlast⟩ := ih hle
    simp only [shiftLimbs, limbsValue_cons, List.length_cons, pow_succ]
    exact ⟨by linear_combination hword + radix * hrest, hlast⟩

/-! ## The schoolbook product -/

theorem word_add_mod (word : UInt64) (n modulus : Nat) :
    (word.toNat + radix * n) % (radix * modulus) =
      word.toNat + radix * (n % modulus) := by
  rw [Nat.mod_mul, Nat.add_mul_mod_self_left, Nat.mod_eq_of_lt (toNat_lt_radix _),
    Nat.add_mul_div_left _ _ radix_pos, Nat.div_eq_of_lt (toNat_lt_radix _),
    Nat.zero_add]

@[simp] theorem propagate_length (out : Limbs) (carry : UInt64) :
    (propagate out carry).length = out.length := by
  induction out generalizing carry with
  | nil => rfl
  | cons word out ih =>
    simp only [propagate]
    split <;> simp [ih]

theorem propagate_value (out : Limbs) (carry : UInt64) :
    limbsValue (propagate out carry) =
      (limbsValue out + carry.toNat) % radix ^ out.length := by
  induction out generalizing carry with
  | nil => simp [propagate, Nat.mod_one]
  | cons word out ih =>
    have hlt := limbsValue_lt (word :: out)
    simp only [propagate]
    split
    · next hzero =>
      rw [hzero, UInt64.toNat_zero, Nat.add_zero, Nat.mod_eq_of_lt hlt]
    · have hword := adc_value word 0 carry
      rw [UInt64.toNat_zero, Nat.add_zero] at hword
      rw [limbsValue_cons, ih, limbsValue_cons, List.length_cons, pow_succ',
        show word.toNat + radix * limbsValue out + carry.toNat =
          (adc word 0 carry).1.toNat +
            radix * (limbsValue out + (adc word 0 carry).2.toNat) by
              linear_combination -hword,
        word_add_mod]

@[simp] theorem mulRow_length (a : UInt64) (out b : Limbs) (carry : UInt64)
    (h : b.length ≤ out.length) : (mulRow a out b carry).length = out.length := by
  induction out generalizing b carry with
  | nil =>
    cases b with
    | nil => simp [mulRow]
    | cons y ys => simp at h
  | cons word out ih =>
    cases b with
    | nil => simp [mulRow]
    | cons y ys => simpa [mulRow] using ih ys _ (by simpa using h)

theorem mulRow_value (a : UInt64) {out b : Limbs} (carry : UInt64)
    (h : b.length ≤ out.length) :
    limbsValue (mulRow a out b carry) =
      (limbsValue out + a.toNat * limbsValue b + carry.toNat) %
        radix ^ out.length := by
  induction out generalizing b carry with
  | nil =>
    cases b with
    | nil => simp [mulRow, propagate, Nat.mod_one]
    | cons y ys => simp at h
  | cons word out ih =>
    cases b with
    | nil => simp [mulRow, propagate_value]
    | cons y ys =>
      have hword := mac_value word a y carry
      simp only [mulRow]
      rw [limbsValue_cons, ih _ (by simpa using h), limbsValue_cons,
        limbsValue_cons, List.length_cons, pow_succ',
        show word.toNat + radix * limbsValue out +
            a.toNat * (y.toNat + radix * limbsValue ys) + carry.toNat =
          (mac word a y carry).1.toNat + radix * (limbsValue out +
            a.toNat * limbsValue ys + (mac word a y carry).2.toNat) by
              linear_combination -hword,
        word_add_mod]

theorem mulLimbs_length {o a b : Limbs}
    (h : a.length + b.length ≤ o.length) :
    (mulLimbs o a b).length = o.length := by
  induction a generalizing o with
  | nil => rfl
  | cons x xs ih =>
    rw [List.length_cons] at h
    have hrow := mulRow_length x o b 0 (by omega)
    simp only [mulLimbs]
    split
    · next heq => simp [heq] at hrow; omega
    · next word rest heq =>
      rw [heq, List.length_cons] at hrow
      rw [List.length_cons, ih (by omega), hrow]

theorem mulLimbs_value {out a b : Limbs}
    (h : a.length + b.length ≤ out.length) :
    limbsValue (mulLimbs out a b) =
      (limbsValue out + limbsValue a * limbsValue b) % radix ^ out.length := by
  induction a generalizing out with
  | nil => simp [mulLimbs, Nat.mod_eq_of_lt (limbsValue_lt out)]
  | cons x xs ih =>
    rw [List.length_cons] at h
    have hlength := mulRow_length x out b 0 (by omega)
    have hvalue := mulRow_value x 0 (by omega : b.length ≤ out.length)
    simp only [mulLimbs]
    split
    · next heq => simp [heq] at hlength; omega
    · next word rest heq =>
      rw [heq, List.length_cons] at hlength
      rw [heq, limbsValue_cons] at hvalue
      rw [← hlength, pow_succ', UInt64.toNat_zero, Nat.add_zero] at hvalue
      rw [limbsValue_cons, ih (by omega), ← hlength, pow_succ']
      calc word.toNat + radix *
            ((limbsValue rest + limbsValue xs * limbsValue b) %
              radix ^ rest.length)
          = (word.toNat + radix * limbsValue rest +
              radix * (limbsValue xs * limbsValue b)) %
              (radix * radix ^ rest.length) := by
            rw [← word_add_mod]
            congr 1
            ring
        _ = (limbsValue out + x.toNat * limbsValue b +
              radix * (limbsValue xs * limbsValue b)) %
              (radix * radix ^ rest.length) := by
            rw [hvalue, Nat.mod_add_mod]
        _ = (limbsValue out + limbsValue (x :: xs) * limbsValue b) %
              (radix * radix ^ rest.length) := by
            rw [limbsValue_cons]
            congr 1
            ring

theorem mulLimbs_zero_value {w : Nat} {a b : Limbs}
    (h : a.length + b.length ≤ w) :
    limbsValue (mulLimbs (List.replicate w 0) a b) =
      limbsValue a * limbsValue b := by
  have hlt : limbsValue a * limbsValue b < radix ^ w :=
    calc limbsValue a * limbsValue b
        < radix ^ a.length * radix ^ b.length :=
          Nat.mul_lt_mul'' (limbsValue_lt a) (limbsValue_lt b)
      _ = radix ^ (a.length + b.length) := (pow_add _ _ _).symm
      _ ≤ radix ^ w := Nat.pow_le_pow_right radix_pos h
  rw [mulLimbs_value (by simpa using h)]
  simp [Nat.mod_eq_of_lt hlt]

theorem blit_value (width : Nat) (words : Limbs) :
    limbsValue (blit width words) = limbsValue words := by
  simp [blit, limbsValue_append]

/-! ## Integers -/

namespace Uint

variable {BITS LIMBS : Nat}

theorem value_lt (x : Uint BITS LIMBS) : x.value < radix ^ LIMBS := by
  have h := limbsValue_lt x.limbs
  rwa [x.length_eq] at h

theorem value_inj {x y : Uint BITS LIMBS} (h : x.value = y.value) : x = y :=
  Uint.ext (limbsValue_inj (x.length_eq.trans y.length_eq.symm) h)

theorem exists_value {n : Nat} (h : n < radix ^ LIMBS) :
    ∃ x : Uint BITS LIMBS, x.value = n :=
  ⟨⟨limbsOf LIMBS n, limbsOf_length LIMBS n⟩, by
    rw [value, limbsValue_limbsOf, Nat.mod_eq_of_lt h]⟩

@[simp] theorem ZERO_value : (ZERO : Uint BITS LIMBS).value = 0 := by
  simp [value, ZERO]

theorem ONE_value (h : 0 < LIMBS) : (ONE : Uint BITS LIMBS).value = 1 := by
  have hset := limbsValue_set (w := List.replicate LIMBS 0) (i := 0)
    (by simpa using h) 1
  simpa [value, ONE, fromU64, List.getElem?_replicate, h] using hset

theorem ctSelect_eq (a b : Uint BITS LIMBS) (choice : Bool) :
    ctSelect a b choice = if choice then a else b := by
  apply Uint.ext
  have h := zipWith_ctSelectU64 (a.length_eq.trans b.length_eq.symm) choice
  cases choice <;> exact h

theorem addRaw_value (x y : Uint BITS LIMBS) :
    (x.addRaw y).1.value + radix ^ LIMBS * (x.addRaw y).2.toNat =
      x.value + y.value := by
  have h := addLimbs_value (x.length_eq.trans y.length_eq.symm) 0
  rw [x.length_eq] at h
  simpa [addRaw, value] using h

theorem subRaw_value (x y : Uint BITS LIMBS) :
    (x.subRaw y).1.value + y.value =
        x.value + radix ^ LIMBS * (x.subRaw y).2.toNat ∧
      (x.subRaw y).2.toNat ≤ 1 := by
  have h := subLimbs_value (x.length_eq.trans y.length_eq.symm)
    (u := 0) (by simp)
  rw [x.length_eq] at h
  simpa [subRaw, value] using h

theorem shift_value (rem : Uint BITS LIMBS) {b : UInt64} (hbit : b.toNat ≤ 1) :
    (rem.shift b).1.value + radix ^ LIMBS * (rem.shift b).2.toNat =
        2 * rem.value + b.toNat ∧
      (rem.shift b).2.toNat ≤ 1 := by
  have h := shiftLimbs_value rem.limbs hbit
  rw [rem.length_eq] at h
  simpa [shift, value] using h

theorem subRaw_borrow (x y : Uint BITS LIMBS) :
    (x.subRaw y).2 = if x.value < y.value then 1 else 0 := by
  obtain ⟨hvalue, hle⟩ := subRaw_value x y
  have hlt := value_lt (x.subRaw y).1
  have hcases : (x.subRaw y).2.toNat = 0 ∨ (x.subRaw y).2.toNat = 1 := by omega
  have hy := value_lt y
  apply UInt64.toNat_inj.mp
  rcases hcases with h | h
  · rw [h, Nat.mul_zero] at hvalue
    rw [h, if_neg (by omega)]
    rfl
  · rw [h, Nat.mul_one] at hvalue
    rw [h, if_pos (by omega)]
    rfl

theorem ctGe_eq (x y : Uint BITS LIMBS) :
    x.ctGe y = decide (y.value ≤ x.value) := by
  unfold ctGe
  rw [subRaw_borrow]
  split
  · next h => simp [h]
  · next h => simpa using h

/-- The source's overflow-aware selection after a tentative subtraction. -/
theorem condSub_flag (x y : Uint BITS LIMBS) {carry : UInt64}
    (hcarry : carry.toNat ≤ 1) (hy : y.value < radix ^ LIMBS) :
    ((carry ||| ((x.subRaw y).2 ^^^ 1)) != 0) =
      decide (y.value ≤ x.value + radix ^ LIMBS * carry.toNat) := by
  have hcases : carry = 0 ∨ carry = 1 := by
    rcases Nat.le_one_iff_eq_zero_or_eq_one.mp hcarry with h | h
    · exact .inl (UInt64.toNat_inj.mp h)
    · exact .inr (UInt64.toNat_inj.mp h)
  rw [subRaw_borrow]
  rcases hcases with rfl | rfl
  · by_cases h : x.value < y.value
    · simp [h]
    · simp [h]
      omega
  · have hge : y.value ≤ x.value + radix ^ LIMBS * (1 : UInt64).toNat := by
      simp
      omega
    rw [decide_eq_true hge]
    split <;> decide

theorem condSub_value (x y : Uint BITS LIMBS) {carry : UInt64}
    (hcarry : carry.toNat ≤ 1)
    (hbound : x.value + radix ^ LIMBS * carry.toNat < 2 * y.value) :
    (ctSelect (x.subRaw y).1 x
        ((carry ||| ((x.subRaw y).2 ^^^ 1)) != 0)).value =
      (x.value + radix ^ LIMBS * carry.toNat) % y.value := by
  have hy := value_lt y
  rw [condSub_flag x y hcarry hy, ctSelect_eq]
  obtain ⟨hvalue, hle⟩ := subRaw_value x y
  by_cases h : y.value ≤ x.value + radix ^ LIMBS * carry.toNat
  · rw [decide_eq_true h, if_pos rfl, Nat.mod_eq_sub_mod h,
      Nat.mod_eq_of_lt (by omega)]
    have hsub := value_lt (x.subRaw y).1
    rcases Nat.le_one_iff_eq_zero_or_eq_one.mp hcarry with h0 | h1
    · rcases Nat.le_one_iff_eq_zero_or_eq_one.mp hle with g0 | g1
      · rw [h0] at h ⊢
        rw [g0] at hvalue
        omega
      · rw [h0] at h
        rw [g1] at hvalue
        omega
    · rcases Nat.le_one_iff_eq_zero_or_eq_one.mp hle with g0 | g1
      · rw [h1] at hbound
        rw [g0] at hvalue
        omega
      · rw [h1]
        rw [g1] at hvalue
        omega
  · rw [decide_eq_false h, if_neg (by simp), Nat.mod_eq_of_lt (by omega)]
    have hzero : carry.toNat = 0 := by
      by_contra hne
      have : carry.toNat = 1 := by omega
      rw [this] at h
      omega
    simp [hzero]

theorem addRaw_carry_le (x y : Uint BITS LIMBS) : (x.addRaw y).2.toNat ≤ 1 := by
  have hvalue := addRaw_value x y
  have hx := value_lt x
  have hy := value_lt y
  by_contra hgt
  have hle : radix ^ LIMBS * 2 ≤ radix ^ LIMBS * (x.addRaw y).2.toNat :=
    Nat.mul_le_mul_left _ (by omega)
  omega

theorem addMod_value {x y modulus : Uint BITS LIMBS} (hx : x.value < modulus.value)
    (hy : y.value < modulus.value) :
    (x.addMod y modulus).value = (x.value + y.value) % modulus.value := by
  have hvalue := addRaw_value x y
  have h := condSub_value (x.addRaw y).1 modulus (addRaw_carry_le x y) (by omega)
  rw [hvalue] at h
  exact h

theorem doubleMod_value {x modulus : Uint BITS LIMBS}
    (hx : x.value < modulus.value) :
    (x.doubleMod modulus).value = (x.value + x.value) % modulus.value :=
  addMod_value hx hx

theorem subMod_value {x y modulus : Uint BITS LIMBS} (hx : x.value < modulus.value)
    (hy : y.value < modulus.value) :
    (x.subMod y modulus).value =
      (x.value + modulus.value - y.value) % modulus.value := by
  obtain ⟨hdiff, -⟩ := subRaw_value x y
  have hadd := addRaw_value (x.subRaw y).1 modulus
  have hcarry := addRaw_carry_le (x.subRaw y).1 modulus
  have hm := value_lt modulus
  have hlt := value_lt ((x.subRaw y).1.addRaw modulus).1
  simp only [subMod, ctSelect_eq]
  rw [subRaw_borrow] at hdiff ⊢
  by_cases h : x.value < y.value
  · rw [if_pos h, UInt64.toNat_one, Nat.mul_one] at hdiff
    rw [if_pos h, if_pos (by decide), Nat.mod_eq_of_lt (by omega)]
    rcases Nat.le_one_iff_eq_zero_or_eq_one.mp hcarry with h0 | h1
    · rw [h0] at hadd
      omega
    · rw [h1] at hadd
      omega
  · rw [if_neg h, UInt64.toNat_zero, Nat.mul_zero] at hdiff
    rw [if_neg h, if_neg (by decide),
      show x.value + modulus.value - y.value =
        x.value - y.value + modulus.value by omega,
      Nat.add_mod_right, Nat.mod_eq_of_lt (by omega)]
    omega

/-! ## Bits -/

theorem word_bit_toNat (words : Limbs) (i : Nat) :
    ((words.getD (i / 64) 0 >>> UInt64.ofNat (i % 64)) &&& 1).toNat =
      limbsValue words / 2 ^ i % 2 := by
  have hmod : i % 64 < 64 := Nat.mod_lt _ (by omega)
  have hshift : (UInt64.ofNat (i % 64)).toNat % 64 = i % 64 := by
    rw [toNat_ofNat_radix]
    unfold radix
    omega
  have hpow : radix ^ (i / 64) = 2 ^ (64 * (i / 64)) := by
    rw [radix, ← pow_mul]
  rw [UInt64.toNat_and, UInt64.toNat_shiftRight, hshift, getD_toNat, hpow,
    UInt64.toNat_one, Nat.and_one_is_mod, Nat.shiftRight_eq_div_pow, radix,
    ← Nat.toNat_testBit, ← Nat.toNat_testBit, Nat.testBit_mod_two_pow,
    Nat.testBit_div_two_pow]
  simp [hmod, Nat.mod_add_div]

theorem bit_eq_testBit {x : Uint BITS LIMBS} {i : Nat} (hi : i < BITS) :
    x.bit i = x.value.testBit i := by
  have hword := word_bit_toNat x.limbs i
  rw [bit, if_neg (by omega), Nat.testBit_eq_decide_div_mod_eq, value, ← hword]
  rw [Bool.eq_iff_iff, beq_iff_eq, decide_eq_true_iff, ← UInt64.toNat_inj,
    UInt64.toNat_one]

theorem foldl_or_eq_zero (words : Limbs) (acc : UInt64) :
    words.foldl (· ||| ·) acc = 0 ↔ acc = 0 ∧ limbsValue words = 0 := by
  induction words generalizing acc with
  | nil => simp
  | cons word words ih =>
    rw [List.foldl_cons, ih, UInt64.or_eq_zero_iff, limbsValue_cons,
      ← UInt64.toNat_inj (a := word)]
    have := radix_pos
    simp only [UInt64.toNat_zero, Nat.add_eq_zero_iff, Nat.mul_eq_zero]
    constructor
    · rintro ⟨⟨h0, h1⟩, h2⟩
      exact ⟨h0, h1, .inr h2⟩
    · rintro ⟨h0, h1, h2⟩
      exact ⟨⟨h0, h1⟩, h2.resolve_left (by omega)⟩

theorem isZero_eq (x : Uint BITS LIMBS) : x.isZero = decide (x.value = 0) := by
  rw [isZero, Bool.eq_iff_iff, beq_iff_eq, foldl_or_eq_zero, decide_eq_true_iff]
  simp [value]

theorem isOdd_eq (x : Uint BITS LIMBS) : x.isOdd = decide (x.value % 2 = 1) := by
  have hword := word_bit_toNat x.limbs 0
  have hshift : x.limbs.getD (0 / 64) 0 >>> UInt64.ofNat (0 % 64) = x.limbs.getD 0 0 :=
    UInt64.shiftRight_zero
  rw [hshift, pow_zero, Nat.div_one] at hword
  rw [isOdd, Bool.eq_iff_iff, beq_iff_eq, decide_eq_true_iff, value, ← hword,
    ← UInt64.toNat_inj, UInt64.toNat_one]

/-! ## The bit-serial reduction -/

theorem reduceWideInternal_value {product : Limbs} {modulus : Uint BITS LIMBS}
    (hm : 0 < modulus.value) (hproduct : limbsValue product < radix ^ (2 * LIMBS)) :
    (reduceWideInternal product modulus).value =
      limbsValue product % modulus.value := by
  have hpow : radix ^ (2 * LIMBS) = 2 ^ (LIMBS * 128) := by
    rw [radix, ← pow_mul]
    congr 1
    omega
  -- After bit `i` the remainder is that of the product without its low `i` bits.
  have hrule := forDown_rule (n := LIMBS * 128)
    (f := reduceStep product modulus)
    (I := fun i (rem : Uint BITS LIMBS) =>
      rem.value = limbsValue product / 2 ^ i % modulus.value)
    (fun i rem hi hrem => by
      have hbit := word_bit_toNat product i
      have hle : ((product.getD (i / 64) 0 >>> UInt64.ofNat (i % 64)) &&& 1).toNat
          ≤ 1 := by
        rw [hbit]
        omega
      obtain ⟨hshift, hcarry⟩ := shift_value rem hle
      have hlt := Nat.mod_lt (limbsValue product / 2 ^ (i + 1)) hm
      have hsplit : limbsValue product / 2 ^ i =
          2 * (limbsValue product / 2 ^ (i + 1)) +
            limbsValue product / 2 ^ i % 2 := by
        rw [pow_succ, ← Nat.div_div_eq_div_mul]
        omega
      have hsub := condSub_value _ modulus hcarry (by rw [hshift]; omega)
      rw [hshift, hbit, hrem] at hsub
      rw [reduceStep, hsub, hsplit]
      conv_rhs => rw [← Nat.mod_add_mod, ← Nat.mul_mod_mod, Nat.mod_add_mod]
      congr 2
      omega)
    (s := ZERO) (by
      rw [ZERO_value, Nat.div_eq_of_lt (by rwa [← hpow]), Nat.zero_mod])
  rw [pow_zero, Nat.div_one] at hrule
  exact hrule

theorem mulMod_value {x y modulus : Uint BITS LIMBS} (hwidth : LIMBS * 2 ≤ MAX_LIMBS)
    (hm : 0 < modulus.value) :
    ∃ r, mulMod x y modulus = some r ∧
      r.value = x.value * y.value % modulus.value := by
  have hproduct : limbsValue (mulLimbs (List.replicate MAX_LIMBS 0) x.limbs y.limbs) =
      x.value * y.value :=
    mulLimbs_zero_value (by rw [x.length_eq, y.length_eq]; omega)
  have hlt : x.value * y.value < radix ^ (2 * LIMBS) := by
    rw [Nat.two_mul, pow_add]
    exact Nat.mul_lt_mul'' (value_lt x) (value_lt y)
  refine ⟨_, by simp [mulMod, mulWideInternal, hwidth]; rfl, ?_⟩
  rw [reduceWideInternal_value hm (by rwa [hproduct]), hproduct]

/-- The width assertion is the only thing that stops `mul_mod`. -/
theorem bitSerial_exact {a b m : Uint BITS LIMBS} (hm : 0 < m.value) :
    (mulMod a b m).map value =
        (if LIMBS * 2 ≤ MAX_LIMBS then some (a.value * b.value % m.value) else none) ∧
      (a.value < m.value → b.value < m.value →
        (a.addMod b m).value = (a.value + b.value) % m.value ∧
        ((a.subMod b m).value : Int) = ((a.value : Int) - b.value) % m.value ∧
        (a.doubleMod m).value = 2 * a.value % m.value) := by
  constructor
  · split
    · next hwidth =>
      obtain ⟨r, hr, hvalue⟩ := mulMod_value (x := a) (y := b) hwidth hm
      rw [hr, Option.map_some, hvalue]
    · next hwidth => simp [mulMod, mulWideInternal, hwidth]
  · intro ha hb
    refine ⟨addMod_value ha hb, ?_, ?_⟩
    · have hcast : ((a.value + m.value - b.value : Nat) : Int) =
          (a.value : Int) - b.value + m.value := by
        have : b.value ≤ a.value + m.value := by omega
        push_cast [this]
        ring
      rw [subMod_value ha hb, Int.natCast_mod, hcast, Int.add_emod_right]
    · rw [doubleMod_value ha, Nat.two_mul]

/-- Top bit of the modulus set: the doubled remainder leaves the limb. -/
theorem bitSerial_exact_top_bit :
    (mulMod (⟨[0xffffffffffffffff], rfl⟩ : Uint 64 1) ⟨[0xfffffffffffffffe], rfl⟩
      ⟨[0x8000000000000001], rfl⟩).map value = some 12 := by
  have h := (bitSerial_exact (a := (⟨[0xffffffffffffffff], rfl⟩ : Uint 64 1))
    (b := ⟨[0xfffffffffffffffe], rfl⟩) (m := ⟨[0x8000000000000001], rfl⟩) (by decide)).1
  rw [h]
  decide

/-- From 131 limbs on the product has no room in `MAX_LIMBS`. -/
theorem bitSerial_width_limit :
    ¬ ∀ (BITS LIMBS : Nat) (a b m : Uint BITS LIMBS), 0 < m.value →
      ∃ r, mulMod a b m = some r ∧ r.value = a.value * b.value % m.value := by
  intro h
  obtain ⟨r, hr, -⟩ := h 8384 131 ONE ONE ONE (by rw [ONE_value (by decide)]; decide)
  simp [mulMod, mulWideInternal, MAX_LIMBS] at hr

end Uint

/-! ## Products of fixed width -/

/-- One row of a product whose carry ends in the next limb. -/
def productRow (a : UInt64) : Limbs → Limbs → UInt64 → Limbs
  | word :: out, b :: bs, carry =>
    let (v, cc) := mac word a b carry
    v :: productRow a out bs cc
  | _ :: out, [], carry => carry :: out
  | [], _, _ => []

def productRows : Limbs → Limbs → Limbs → Limbs
  | out, [], _ => out
  | out, a :: as, b =>
    match productRow a out b 0 with
    | [] => []
    | word :: rest => word :: productRows rest as b

theorem productRow_spec (a : UInt64) {low b : Limbs} (h : low.length = b.length) (word : UInt64)
    (rest : Limbs) (carry : UInt64) :
    ∃ row, productRow a (low ++ word :: rest) b carry = row ++ rest ∧
      row.length = b.length + 1 ∧
      limbsValue row = limbsValue low + a.toNat * limbsValue b + carry.toNat := by
  induction b generalizing low carry with
  | nil =>
    obtain rfl := List.length_eq_zero_iff.mp h
    exact ⟨[carry], rfl, rfl, by simp⟩
  | cons y b ih =>
    cases low with
    | nil => exact absurd h (by simp)
    | cons x low =>
      obtain ⟨row, heq, hlength, hvalue⟩ := ih (by simpa using h) (mac x a y carry).2
      have hmac := mac_value x a y carry
      refine ⟨(mac x a y carry).1 :: row, ?_, by rw [List.length_cons, hlength]; rfl, ?_⟩
      · rw [List.cons_append, productRow, List.cons_append, ← heq]
      · rw [limbsValue_cons, hvalue, limbsValue_cons, limbsValue_cons]
        linear_combination hmac

theorem productRows_spec {low a b : Limbs} (h : low.length = b.length) :
    (productRows (low ++ List.replicate a.length 0) a b).length = b.length + a.length ∧
      limbsValue (productRows (low ++ List.replicate a.length 0) a b) =
        limbsValue low + limbsValue a * limbsValue b := by
  induction a generalizing low with
  | nil => simp [productRows, h]
  | cons x a ih =>
    obtain ⟨row, heq, hlength, hvalue⟩ := productRow_spec x h 0 (List.replicate a.length 0) 0
    cases row with
    | nil => exact absurd hlength (by simp)
    | cons word row =>
      obtain ⟨hrest, hsum⟩ := @ih row (by simpa using hlength)
      have hrows : productRows (low ++ List.replicate (x :: a).length 0) (x :: a) b =
          word :: productRows (row ++ List.replicate a.length 0) a b := by
        rw [List.length_cons, List.replicate_succ, productRows, heq, List.cons_append]
      rw [hrows]
      refine ⟨by rw [List.length_cons, hrest, List.length_cons, Nat.add_assoc], ?_⟩
      rw [limbsValue_cons, UInt64.toNat_zero] at hvalue
      rw [limbsValue_cons, hsum, limbsValue_cons]
      linear_combination hvalue

theorem productRows_zeros (a b : Limbs) :
    (productRows (List.replicate (a.length + b.length) 0) a b).length = a.length + b.length ∧
      limbsValue (productRows (List.replicate (a.length + b.length) 0) a b) =
        limbsValue a * limbsValue b := by
  have hspec := @productRows_spec (List.replicate b.length 0) a b (by simp)
  rw [← List.replicate_add, Nat.add_comm b.length, limbsValue_replicate_zero,
    Nat.zero_add] at hspec
  exact hspec

end Stdx.BigNumber
