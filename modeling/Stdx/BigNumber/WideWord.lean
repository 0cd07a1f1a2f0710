import Stdx.BigNumber.Barrett

/-!
# Word and double-word operands

Addition, subtraction, multiplication and division of `Uint` by a `u64` and by a
`u128`.  A carry loop that starts at limb `index` is a recursion over the limbs
from there on; indexing limb 0 of a type without limbs is `none`.
-/

namespace Stdx.BigNumber

open Stdx.Foundation

abbrev U128 := BitVec 128

/-- `value as u64` -/
def lowWord (value : U128) : UInt64 := UInt64.ofNat value.toNat

/-- `(value >> 64) as u64` -/
def highWord (value : U128) : UInt64 := UInt64.ofNat (value >>> 64).toNat

theorem words_value (value : U128) :
    (lowWord value).toNat + radix * (highWord value).toNat = value.toNat := by
  have hlt := value.isLt
  rw [lowWord, highWord, toNat_ofNat_radix, toNat_ofNat_radix,
    BitVec.toNat_ushiftRight, Nat.shiftRight_eq_div_pow]
  unfold radix
  omega

/-! ## Chains -/

/-- `while i < LIMBS && carry != 0 { (out[i], carry) = adc(out[i], carry, 0) }` -/
@[grind =]
def addFrom : Limbs → UInt64 → Limbs × UInt64
  | [], carry => ([], carry)
  | word :: words, carry =>
    if carry = 0 then (word :: words, 0)
    else
      let (next, nextCarry) := adc word carry 0
      let (rest, carryOut) := addFrom words nextCarry
      (next :: rest, carryOut)

def subFrom : Limbs → UInt64 → Limbs × UInt64
  | [], borrow => ([], borrow)
  | word :: words, borrow =>
    if borrow = 0 then (word :: words, 0)
    else
      let (next, nextBorrow) := sbb word borrow 0
      let (rest, borrowOut) := subFrom words nextBorrow
      (next :: rest, borrowOut)

/-- `while i < LIMBS { (out[i], carry) = mac(0, limbs[i], word, carry) }` -/
def mulChain (word : UInt64) : Limbs → UInt64 → Limbs × UInt64
  | [], carry => ([], carry)
  | limb :: limbs, carry =>
    let (next, nextCarry) := mac 0 limb word carry
    let (rest, carryOut) := mulChain word limbs nextCarry
    (next :: rest, carryOut)

/-- From the most significant limb down, the remainder going on to the next. -/
def divChain (word : UInt64) : Limbs → Limbs × UInt64
  | [] => ([], 0)
  | limb :: limbs =>
    let (out, rem) := divChain word limbs
    let dividend := (rem.toNat <<< 64) ||| limb.toNat
    (UInt64.ofNat (dividend / word.toNat) :: out,
      UInt64.ofNat (dividend % word.toNat))

@[simp] theorem addFrom_length (words : Limbs) (carry : UInt64) :
    (addFrom words carry).1.length = words.length := by
  induction words generalizing carry with
  | nil => rfl
  | cons word words ih =>
    simp only [addFrom]
    split <;> simp [ih]

@[simp] theorem subFrom_length (words : Limbs) (borrow : UInt64) :
    (subFrom words borrow).1.length = words.length := by
  induction words generalizing borrow with
  | nil => rfl
  | cons word words ih =>
    simp only [subFrom]
    split <;> simp [ih]

@[simp] theorem mulChain_length (word : UInt64) (limbs : Limbs) (carry : UInt64) :
    (mulChain word limbs carry).1.length = limbs.length := by
  induction limbs generalizing carry with
  | nil => rfl
  | cons limb limbs ih => simp [mulChain, ih]

@[simp] theorem divChain_length (word : UInt64) (limbs : Limbs) :
    (divChain word limbs).1.length = limbs.length := by
  induction limbs with
  | nil => rfl
  | cons limb limbs ih => simp [divChain, ih]

theorem addFrom_value (words : Limbs) (carry : UInt64) :
    limbsValue (addFrom words carry).1 +
        radix ^ words.length * (addFrom words carry).2.toNat =
      limbsValue words + carry.toNat := by
  induction words generalizing carry with
  | nil => simp [addFrom]
  | cons word words ih =>
    simp only [addFrom]
    split
    · next hzero => simp [hzero]
    · have hword := adc_value word carry 0
      have hrest := ih (adc word carry 0).2
      simp only [UInt64.toNat_zero, Nat.add_zero] at hword
      simp only [limbsValue_cons, List.length_cons, pow_succ]
      linear_combination hword + radix * hrest

theorem subFrom_value (words : Limbs) (borrow : UInt64) :
    limbsValue (subFrom words borrow).1 + borrow.toNat =
      limbsValue words + radix ^ words.length * (subFrom words borrow).2.toNat := by
  induction words generalizing borrow with
  | nil => simp [subFrom]
  | cons word words ih =>
    simp only [subFrom]
    split
    · next hzero => simp [hzero]
    · obtain ⟨hword, -⟩ := sbb_value word borrow
        (by simp : (0 : UInt64).toNat ≤ 1)
      have hrest := ih (sbb word borrow 0).2
      simp only [UInt64.toNat_zero, Nat.add_zero] at hword
      simp only [limbsValue_cons, List.length_cons, pow_succ]
      linear_combination hword + radix * hrest

theorem mulChain_value (word : UInt64) (limbs : Limbs) (carry : UInt64) :
    limbsValue (mulChain word limbs carry).1 +
        radix ^ limbs.length * (mulChain word limbs carry).2.toNat =
      limbsValue limbs * word.toNat + carry.toNat := by
  induction limbs generalizing carry with
  | nil => simp [mulChain]
  | cons limb limbs ih =>
    have hlimb := mac_value 0 limb word carry
    have hrest := ih (mac 0 limb word carry).2
    simp only [UInt64.toNat_zero, Nat.zero_add] at hlimb
    simp only [mulChain, limbsValue_cons, List.length_cons, pow_succ]
    linear_combination hlimb + radix * hrest

theorem divChain_value {word : UInt64} (hword : word ≠ 0) (limbs : Limbs) :
    limbsValue limbs =
        limbsValue (divChain word limbs).1 * word.toNat +
          (divChain word limbs).2.toNat ∧
      (divChain word limbs).2.toNat < word.toNat := by
  have hpos : 0 < word.toNat :=
    Nat.pos_of_ne_zero fun h => hword (UInt64.toNat_inj.mp h)
  induction limbs with
  | nil => simpa [divChain] using hpos
  | cons limb limbs ih =>
    obtain ⟨hvalue, hrem⟩ := ih
    have hlimb := toNat_lt_radix limb
    have hsize := toNat_lt_radix word
    have hdividend :
        ((divChain word limbs).2.toNat <<< 64) ||| limb.toNat =
          (divChain word limbs).2.toNat * radix + limb.toNat := by
      rw [← Nat.shiftLeft_add_eq_or_of_lt hlimb, Nat.shiftLeft_eq, radix]
    have hmod := Nat.mod_lt
      ((divChain word limbs).2.toNat * radix + limb.toNat) hpos
    -- The quotient is one word because the remainder so far is below `word`.
    have hquot : ((divChain word limbs).2.toNat * radix + limb.toNat) /
        word.toNat < radix := by
      rw [Nat.div_lt_iff_lt_mul hpos]
      have : ((divChain word limbs).2.toNat + 1) * radix ≤ word.toNat * radix :=
        Nat.mul_le_mul_right _ hrem
      rw [Nat.mul_comm radix]
      linarith
    have hsplit := Nat.div_add_mod
      ((divChain word limbs).2.toNat * radix + limb.toNat) word.toNat
    simp only [divChain, limbsValue_cons, hdividend, toNat_ofNat_radix]
    rw [Nat.mod_eq_of_lt hquot, Nat.mod_eq_of_lt (hmod.trans hsize)]
    refine ⟨?_, hmod⟩
    linear_combination radix * hvalue - hsplit

namespace Uint

variable {BITS LIMBS : Nat}

/-! ## Words -/

def addWord (x : Uint BITS LIMBS) (word : UInt64) :
    Option (Uint BITS LIMBS × UInt64) :=
  match h : x.limbs with
  | [] => none
  | limb :: limbs =>
    let first := adc limb word 0
    let rest := addLimbs limbs (List.replicate limbs.length 0) first.2
    some (⟨first.1 :: rest.1, by
      simp [rest, ← x.length_eq, h]⟩, rest.2)

def subWord (x : Uint BITS LIMBS) (word : UInt64) :
    Option (Uint BITS LIMBS × UInt64) :=
  match h : x.limbs with
  | [] => none
  | limb :: limbs =>
    let first := sbb limb word 0
    let rest := subLimbs limbs (List.replicate limbs.length 0) first.2
    some (⟨first.1 :: rest.1, by
      simp [rest, ← x.length_eq, h]⟩, rest.2)

def mulWord (x : Uint BITS LIMBS) (word : UInt64) : Uint BITS LIMBS × UInt64 :=
  (⟨(mulChain word x.limbs 0).1, by simp [x.length_eq]⟩,
    (mulChain word x.limbs 0).2)

/-- `none` is the assertion against a zero divisor. -/
def divRemWord (x : Uint BITS LIMBS) (word : UInt64) :
    Option (Uint BITS LIMBS × UInt64) :=
  if word ≠ 0 then
    some (⟨(divChain word x.limbs).1, by simp [x.length_eq]⟩,
      (divChain word x.limbs).2)
  else none

def addWordAt (x : Uint BITS LIMBS) (index : Nat) (word : UInt64) :
    Uint BITS LIMBS × UInt64 :=
  (⟨x.limbs.take index ++ (addFrom (x.limbs.drop index) word).1, by
      rw [List.length_append, addFrom_length, ← List.length_append,
        List.take_append_drop, x.length_eq]⟩,
    (addFrom (x.limbs.drop index) word).2)

def subWordAt (x : Uint BITS LIMBS) (index : Nat) (word : UInt64) :
    Uint BITS LIMBS × UInt64 :=
  (⟨x.limbs.take index ++ (subFrom (x.limbs.drop index) word).1, by
      rw [List.length_append, subFrom_length, ← List.length_append,
        List.take_append_drop, x.length_eq]⟩,
    (subFrom (x.limbs.drop index) word).2)

/-! ## Double words -/

def addU128 (x : Uint BITS LIMBS) (value : U128) : Option (Uint BITS LIMBS) :=
  (x.addWord (lowWord value)).map fun sum => (sum.1.addWordAt 1 (highWord value)).1

def subU128 (x : Uint BITS LIMBS) (value : U128) : Option (Uint BITS LIMBS) :=
  (x.subWord (lowWord value)).map fun diff => (diff.1.subWordAt 1 (highWord value)).1

/-- `low + (high << 64)`, limb 0 being that of `low`. -/
def addShifted (low high : Uint BITS LIMBS) : Uint BITS LIMBS :=
  ⟨low.limbs.take 1 ++
      (addLimbs (low.limbs.drop 1) (high.limbs.take (LIMBS - 1)) 0).1, by
    rw [List.length_append, addLimbs_length _ _ _ (by
        simp [low.length_eq, high.length_eq]),
      ← List.length_append, List.take_append_drop, low.length_eq]⟩

def mulU128 (x : Uint BITS LIMBS) (value : U128) : Uint BITS LIMBS :=
  if highWord value = 0 then (x.mulWord (lowWord value)).1
  else addShifted (x.mulWord (lowWord value)).1 (x.mulWord (highWord value)).1

/-- `limbs[0] = divisor as u64; limbs[1] = (divisor >> 64) as u64` -/
def fromU128 (value : U128) : Uint BITS LIMBS :=
  ⟨((List.replicate LIMBS 0).set 0 (lowWord value)).set 1 (highWord value), by simp⟩

/-- One bit of the dividend, from bit `i`, on `(quotient, rem)`. -/
def divStep (x d : Uint BITS LIMBS) (i : Nat)
    (s : Uint BITS LIMBS × Uint BITS LIMBS) : Uint BITS LIMBS × Uint BITS LIMBS :=
  let (quotient, rem) := s
  let (rem, carry) := rem.shift (if x.bit i then 1 else 0)
  let (sub, borrow) := rem.subRaw d
  if carry ≠ 0 ∨ borrow = 0 then
    (⟨quotient.limbs.set (i / 64)
        (quotient.limbs.getD (i / 64) 0 ||| (1 <<< UInt64.ofNat (i % 64))), by
          simp [quotient.length_eq]⟩, sub)
  else (quotient, rem)

def divRemU128 (x : Uint BITS LIMBS) (divisor : U128) :
    Option (Uint BITS LIMBS × U128) :=
  if divisor = 0 then none
  else if divisor.toNat ≤ UInt64.size - 1 then
    (x.divRemWord (lowWord divisor)).map fun s => (s.1, BitVec.ofNat 128 s.2.toNat)
  else if LIMBS < 2 then
    x.limbs.head?.map fun limb => (ZERO, BitVec.ofNat 128 limb.toNat)
  else
    let (quotient, rem) := forDown x.bitLen (divStep x (fromU128 divisor)) (ZERO, ZERO)
    some (quotient, BitVec.ofNat 128 (rem.limbs.getD 0 0).toNat |||
      (BitVec.ofNat 128 (rem.limbs.getD 1 0).toNat <<< 64))

/-! ## Values -/

theorem addWord_value (hlimbs : 1 ≤ LIMBS) (x : Uint BITS LIMBS) (word : UInt64) :
    ∃ sum carry, x.addWord word = some (sum, carry) ∧
      sum.value + radix ^ LIMBS * carry.toNat = x.value + word.toNat := by
  have hlength := x.length_eq
  unfold addWord
  split
  · next h =>
    rw [h, List.length_nil] at hlength
    omega
  · next limb limbs h =>
    have hfirst := adc_value limb word 0
    have hrest := addLimbs_value (a := limbs) (b := List.replicate limbs.length 0)
      (by simp) (adc limb word 0).2
    rw [h, List.length_cons] at hlength
    refine ⟨_, _, rfl, ?_⟩
    simp only [value, h, limbsValue_cons, ← hlength, pow_succ]
    rw [limbsValue_replicate_zero] at hrest
    rw [UInt64.toNat_zero] at hfirst
    linear_combination hfirst + radix * hrest

theorem subWord_value (hlimbs : 1 ≤ LIMBS) (x : Uint BITS LIMBS) (word : UInt64) :
    ∃ diff borrow, x.subWord word = some (diff, borrow) ∧
      diff.value + word.toNat = x.value + radix ^ LIMBS * borrow.toNat := by
  have hlength := x.length_eq
  unfold subWord
  split
  · next h =>
    rw [h, List.length_nil] at hlength
    omega
  · next limb limbs h =>
    obtain ⟨hfirst, hborrow⟩ := sbb_value limb word
      (by simp : (0 : UInt64).toNat ≤ 1)
    obtain ⟨hrest, -⟩ := subLimbs_value (a := limbs)
      (b := List.replicate limbs.length 0) (by simp) hborrow
    rw [h, List.length_cons] at hlength
    refine ⟨_, _, rfl, ?_⟩
    simp only [value, h, limbsValue_cons, ← hlength, pow_succ]
    rw [limbsValue_replicate_zero] at hrest
    rw [UInt64.toNat_zero] at hfirst
    linear_combination hfirst + radix * hrest

theorem mulWord_value (x : Uint BITS LIMBS) (word : UInt64) :
    (x.mulWord word).1.value + radix ^ LIMBS * (x.mulWord word).2.toNat =
      x.value * word.toNat := by
  have h := mulChain_value word x.limbs 0
  rw [x.length_eq, UInt64.toNat_zero, Nat.add_zero] at h
  exact h

theorem divRemWord_value (x : Uint BITS LIMBS) {word : UInt64} (hword : word ≠ 0) :
    ∃ q r, x.divRemWord word = some (q, r) ∧
      x.value = q.value * word.toNat + r.toNat ∧ r.toNat < word.toNat := by
  have h := divChain_value hword x.limbs
  exact ⟨_, _, if_pos hword, h⟩

theorem addWordAt_value (x : Uint BITS LIMBS) {index : Nat} (hindex : index ≤ LIMBS)
    (word : UInt64) :
    (x.addWordAt index word).1.value +
        radix ^ LIMBS * (x.addWordAt index word).2.toNat =
      x.value + radix ^ index * word.toNat := by
  have hsplit := limbsValue_take_drop
    (by rw [x.length_eq]; exact hindex : index ≤ x.limbs.length)
  have hchain := addFrom_value (x.limbs.drop index) word
  have hpow : radix ^ LIMBS = radix ^ index * radix ^ (LIMBS - index) := by
    rw [← pow_add, Nat.add_sub_cancel' hindex]
  rw [List.length_drop, x.length_eq] at hchain
  simp only [addWordAt, value, limbsValue_append]
  rw [List.length_take_of_le (by rw [x.length_eq]; exact hindex), hsplit, hpow]
  linear_combination radix ^ index * hchain

theorem subWordAt_value (x : Uint BITS LIMBS) {index : Nat} (hindex : index ≤ LIMBS)
    (word : UInt64) :
    (x.subWordAt index word).1.value + radix ^ index * word.toNat =
      x.value + radix ^ LIMBS * (x.subWordAt index word).2.toNat := by
  have hsplit := limbsValue_take_drop
    (by rw [x.length_eq]; exact hindex : index ≤ x.limbs.length)
  have hchain := subFrom_value (x.limbs.drop index) word
  have hpow : radix ^ LIMBS = radix ^ index * radix ^ (LIMBS - index) := by
    rw [← pow_add, Nat.add_sub_cancel' hindex]
  rw [List.length_drop, x.length_eq] at hchain
  simp only [subWordAt, value, limbsValue_append]
  rw [List.length_take_of_le (by rw [x.length_eq]; exact hindex), hsplit, hpow]
  linear_combination radix ^ index * hchain

private theorem eq_mod_of_carry (x : Uint BITS LIMBS) (carry : Nat) {n : Nat}
    (h : x.value + radix ^ LIMBS * carry = n) : x.value = n % radix ^ LIMBS := by
  rw [← h, Nat.add_mul_mod_self_left, Nat.mod_eq_of_lt (value_lt x)]

private theorem eq_emod_of_borrow (x : Uint BITS LIMBS) (borrow : Nat) {n v : Nat}
    (h : x.value + v = n + radix ^ LIMBS * borrow) :
    (x.value : Int) = ((n : Int) - v) % (radix ^ LIMBS : Nat) := by
  have hlt := value_lt x
  have hint : (n : Int) - v = x.value + (radix ^ LIMBS : Nat) * (-borrow : Int) := by
    have := congrArg (Nat.cast (R := Int)) h
    push_cast at this ⊢
    linarith
  rw [hint, Int.add_mul_emod_self_left, Int.emod_eq_of_lt (by omega) (by omega)]

theorem addU128_value (hlimbs : 1 ≤ LIMBS) (x : Uint BITS LIMBS) (v : U128) :
    ∃ sum, x.addU128 v = some sum ∧
      sum.value = (x.value + v.toNat) % radix ^ LIMBS := by
  obtain ⟨sum, carry, hadd, hlow⟩ := addWord_value hlimbs x (lowWord v)
  have hhigh := addWordAt_value sum hlimbs (highWord v)
  have hwords := words_value v
  refine ⟨_, by rw [addU128, hadd]; rfl, ?_⟩
  apply eq_mod_of_carry _ (carry.toNat + (sum.addWordAt 1 (highWord v)).2.toNat)
  rw [pow_one] at hhigh
  linear_combination hhigh + hlow + hwords

theorem subU128_value (hlimbs : 1 ≤ LIMBS) (x : Uint BITS LIMBS) (v : U128) :
    ∃ diff, x.subU128 v = some diff ∧
      (diff.value : Int) = ((x.value : Int) - v.toNat) % (radix ^ LIMBS : Nat) := by
  obtain ⟨diff, borrow, hsub, hlow⟩ := subWord_value hlimbs x (lowWord v)
  have hhigh := subWordAt_value diff hlimbs (highWord v)
  have hwords := words_value v
  refine ⟨_, by rw [subU128, hsub]; rfl, ?_⟩
  apply eq_emod_of_borrow _
    (borrow.toNat + (diff.subWordAt 1 (highWord v)).2.toNat)
  rw [pow_one] at hhigh
  linear_combination hhigh + hlow - hwords

theorem addShifted_value (hlimbs : 1 ≤ LIMBS) (low high : Uint BITS LIMBS) :
    (addShifted low high).value =
      (low.value + radix * high.value) % radix ^ LIMBS := by
  obtain ⟨n, rfl⟩ : ∃ n, LIMBS = n + 1 := ⟨LIMBS - 1, by omega⟩
  have hlow := limbsValue_take_drop
    (by rw [low.length_eq]; omega : 1 ≤ low.limbs.length)
  have hhigh := limbsValue_take_drop
    (by rw [high.length_eq]; omega : n ≤ high.limbs.length)
  have hsum := addLimbs_value (a := low.limbs.drop 1) (b := high.limbs.take n)
    (by simp [low.length_eq, high.length_eq]) 0
  rw [List.length_drop, low.length_eq, Nat.add_sub_cancel, UInt64.toNat_zero] at hsum
  apply eq_mod_of_carry _ ((addLimbs (low.limbs.drop 1)
    (high.limbs.take n) 0).2.toNat + limbsValue (high.limbs.drop n))
  simp only [addShifted, value, limbsValue_append, Nat.add_sub_cancel]
  rw [List.length_take_of_le (by rw [low.length_eq]; omega), hlow, hhigh, pow_one,
    pow_succ]
  linear_combination radix * hsum

theorem mulU128_value (hlimbs : 1 ≤ LIMBS) (x : Uint BITS LIMBS) (v : U128) :
    (x.mulU128 v).value = x.value * v.toNat % radix ^ LIMBS := by
  have hwords := words_value v
  have hlow := mulWord_value x (lowWord v)
  unfold mulU128
  split
  · next hzero =>
    rw [hzero, UInt64.toNat_zero, Nat.mul_zero, Nat.add_zero] at hwords
    rw [← hwords]
    exact eq_mod_of_carry _ _ hlow
  · have hhigh := mulWord_value x (highWord v)
    rw [addShifted_value hlimbs, ← hwords]
    have hsum : (x.mulWord (lowWord v)).1.value +
          radix * (x.mulWord (highWord v)).1.value +
          radix ^ LIMBS * ((x.mulWord (lowWord v)).2.toNat +
            radix * (x.mulWord (highWord v)).2.toNat) =
        x.value * ((lowWord v).toNat + radix * (highWord v).toNat) := by
      linear_combination hlow + radix * hhigh
    rw [← hsum, Nat.add_mul_mod_self_left]

/-! ## The division loop -/

structure DivInv (x d : Uint BITS LIMBS) (i : Nat)
    (s : Uint BITS LIMBS × Uint BITS LIMBS) : Prop where
  quotient_eq : s.1.value = x.value / 2 ^ i / d.value * 2 ^ i
  rem_eq : s.2.value = x.value / 2 ^ i % d.value

theorem bit_word_toNat {x : Uint BITS LIMBS} {i : Nat} (hi : i < BITS) :
    (if x.bit i then (1 : UInt64) else 0).toNat = x.value / 2 ^ i % 2 := by
  rw [bit_eq_testBit hi, Nat.testBit_eq_decide_div_mod_eq]
  rcases Nat.mod_two_eq_zero_or_one (x.value / 2 ^ i) with h | h <;> simp [h]

theorem divBranch_iff (x y : Uint BITS LIMBS) {carry : UInt64}
    (hcarry : carry.toNat ≤ 1) :
    (carry ≠ 0 ∨ (x.subRaw y).2 = 0) ↔
      y.value ≤ x.value + radix ^ LIMBS * carry.toNat := by
  have hflag := condSub_flag x y hcarry (value_lt y)
  rw [← decide_eq_true_iff (p := y.value ≤ _), ← hflag]
  have hcases : carry = 0 ∨ carry = 1 := by
    rcases Nat.le_one_iff_eq_zero_or_eq_one.mp hcarry with h | h
    · exact .inl (UInt64.toNat_inj.mp h)
    · exact .inr (UInt64.toNat_inj.mp h)
  rw [subRaw_borrow]
  rcases hcases with rfl | rfl <;> split <;> decide

theorem DivInv.step {x d : Uint BITS LIMBS} {i : Nat}
    {s : Uint BITS LIMBS × Uint BITS LIMBS} (hx : x.value < 2 ^ BITS)
    (hd : 0 < d.value) (hi : i < x.bitLen) (h : DivInv x d (i + 1) s) :
    DivInv x d i (divStep x d i s) := by
  have hbits : i < BITS := hi.trans_le ((bitLen_le_iff x BITS).mpr hx)
  have hlimb : i / 64 < s.1.limbs.length := by
    have hsize := value_lt x
    rw [radix, ← pow_mul] at hsize
    have := (bitLen_le_iff x (64 * LIMBS)).mpr hsize
    rw [s.1.length_eq]
    omega
  have hbit := bit_word_toNat hbits (x := x)
  have hone : (if x.bit i then (1 : UInt64) else 0).toNat ≤ 1 := by
    rw [hbit]
    omega
  obtain ⟨hshift, hcarry⟩ := shift_value s.2 hone
  have hsplit : x.value / 2 ^ i =
      2 * (x.value / 2 ^ (i + 1)) + x.value / 2 ^ i % 2 := by
    rw [pow_succ, ← Nat.div_div_eq_div_mul]
    omega
  have hmod := Nat.mod_lt (x.value / 2 ^ (i + 1)) hd
  obtain ⟨hquot, hrem⟩ := quotient_step (q := x.value / 2 ^ (i + 1))
    (b := x.value / 2 ^ i % 2) hd (by omega)
  rw [← hsplit] at hquot hrem
  rw [hbit, h.rem_eq] at hshift
  have hbranch := divBranch_iff (s.2.shift (if x.bit i then 1 else 0)).1 d hcarry
  have hsub := condSub_value (s.2.shift (if x.bit i then 1 else 0)).1 d hcarry
    (by rw [hshift]; omega)
  rw [condSub_flag _ _ hcarry (value_lt d), ctSelect_eq, hshift, ← hrem] at hsub
  rw [hshift] at hbranch
  simp only [divStep]
  by_cases hfits : d.value ≤ 2 * (x.value / 2 ^ (i + 1) % d.value) +
      x.value / 2 ^ i % 2
  · rw [if_pos (hbranch.mpr hfits)]
    rw [if_pos hfits] at hquot
    rw [decide_eq_true hfits, if_pos rfl] at hsub
    have hzero : limbsValue s.1.limbs % 2 ^ (i + 1) = 0 := by
      change s.1.value % 2 ^ (i + 1) = 0
      rw [h.quotient_eq, Nat.mul_mod_left]
    refine ⟨?_, hsub⟩
    change limbsValue _ = _
    rw [or_bit_value hlimb hzero]
    change s.1.value + 2 ^ i = _
    rw [h.quotient_eq, hquot]
    ring
  · rw [if_neg fun hor => hfits (hbranch.mp hor)]
    rw [if_neg hfits] at hquot
    rw [decide_eq_false hfits, if_neg (by simp)] at hsub
    refine ⟨?_, hsub⟩
    change s.1.value = _
    rw [h.quotient_eq, hquot]
    ring

theorem fromU128_value (hlimbs : 2 ≤ LIMBS) (v : U128) :
    (fromU128 v : Uint BITS LIMBS).value = v.toNat := by
  obtain ⟨n, rfl⟩ : ∃ n, LIMBS = n + 2 := ⟨LIMBS - 2, by omega⟩
  have hwords := words_value v
  simpa [fromU128, value, List.replicate_succ] using hwords

theorem lowLimbs_toNat {x : Uint BITS LIMBS} (hx : x.value < 2 ^ 128) :
    (BitVec.ofNat 128 (x.limbs.getD 0 0).toNat |||
      (BitVec.ofNat 128 (x.limbs.getD 1 0).toNat <<< 64)).toNat = x.value := by
  have hlow := getD_toNat x.limbs 0
  have hhigh := getD_toNat x.limbs 1
  have hlt := toNat_lt_radix (x.limbs.getD 0 0)
  have hlt' := toNat_lt_radix (x.limbs.getD 1 0)
  rw [pow_zero, Nat.div_one] at hlow
  rw [pow_one] at hhigh
  simp only [BitVec.toNat_or, BitVec.toNat_shiftLeft, BitVec.toNat_ofNat,
    Nat.shiftLeft_eq]
  change limbsValue x.limbs < _ at hx
  change _ = limbsValue x.limbs
  generalize (x.limbs.getD 0 0).toNat = low at *
  generalize (x.limbs.getD 1 0).toNat = high at *
  unfold radix at *
  rw [Nat.mod_eq_of_lt (by omega), Nat.mod_eq_of_lt (by omega),
    Nat.mod_eq_of_lt (by omega), Nat.or_comm,
    ← Nat.shiftLeft_eq, ← Nat.shiftLeft_add_eq_or_of_lt hlt, Nat.shiftLeft_eq]
  omega

theorem divRemU128_value (hlimbs : 1 ≤ LIMBS) {x : Uint BITS LIMBS}
    (hx : x.value < 2 ^ BITS) {d : U128} (hd : d ≠ 0) :
    ∃ q r, x.divRemU128 d = some (q, r) ∧
      x.value = q.value * d.toNat + r.toNat ∧ r.toNat < d.toNat := by
  have hwords := words_value d
  have hpos : 0 < d.toNat :=
    Nat.pos_of_ne_zero fun h => hd (BitVec.eq_of_toNat_eq (by simpa using h))
  have hhigh := toNat_lt_radix (highWord d)
  have hlow := toNat_lt_radix (lowWord d)
  rw [divRemU128, if_neg hd]
  split
  -- A divisor of one word.
  · next hsmall =>
    have hword : (lowWord d).toNat = d.toNat := by
      rw [lowWord, toNat_ofNat_radix, Nat.mod_eq_of_lt]
      exact Nat.lt_of_le_of_lt hsmall (by decide)
    obtain ⟨q, r, hdiv, hvalue, hlt⟩ := divRemWord_value x
      (fun h => by rw [h] at hword; exact absurd hword hpos.ne : lowWord d ≠ 0)
    have hr : (BitVec.ofNat 128 r.toNat).toNat = r.toNat := by
      rw [BitVec.toNat_ofNat, Nat.mod_eq_of_lt]
      exact r.toNat_lt.trans (by decide)
    refine ⟨q, BitVec.ofNat 128 r.toNat, by rw [hdiv]; rfl, ?_, ?_⟩
    · rw [hr, ← hword, hvalue]
    · rw [hr, ← hword]
      exact hlt
  · next hlarge =>
    split
    -- One limb: every value is below the divisor.
    · next hone =>
      obtain rfl : LIMBS = 1 := by omega
      obtain ⟨limb, hlimb⟩ := List.length_eq_one_iff.mp x.length_eq
      have hr : (BitVec.ofNat 128 limb.toNat).toNat = limb.toNat := by
        rw [BitVec.toNat_ofNat, Nat.mod_eq_of_lt]
        exact limb.toNat_lt.trans (by decide)
      have hlt := limb.toNat_lt
      refine ⟨ZERO, BitVec.ofNat 128 limb.toNat, by rw [hlimb]; rfl, ?_, ?_⟩
      · rw [hr, ZERO_value, value, hlimb]
        simp
      · rw [hr]
        have : UInt64.size = 2 ^ 64 := rfl
        omega
    · next htwo =>
      have hdvalue : (fromU128 d : Uint BITS LIMBS).value = d.toNat :=
        fromU128_value (by omega) d
      have hstart : DivInv x (fromU128 d) x.bitLen (ZERO, ZERO) := by
        have hzero : x.value / 2 ^ x.bitLen = 0 :=
          Nat.div_eq_of_lt ((bitLen_le_iff x _).mp le_rfl)
        exact ⟨by simp [hzero], by simp [hzero]⟩
      have hrun := forDown_rule (f := divStep x (fromU128 d))
        (I := DivInv x (fromU128 d))
        (fun i s hi hinv => hinv.step hx (by omega) hi) hstart
      have hquot := hrun.quotient_eq
      have hrem := hrun.rem_eq
      rw [pow_zero, Nat.div_one, Nat.mul_one, hdvalue] at hquot
      rw [pow_zero, Nat.div_one, hdvalue] at hrem
      have hlt := Nat.mod_lt x.value hpos
      refine ⟨_, _, rfl, ?_, ?_⟩
      · rw [lowLimbs_toNat (by rw [hrem]; exact hlt.trans d.isLt), hquot, hrem,
          Nat.div_add_mod']
      · rw [lowLimbs_toNat (by rw [hrem]; exact hlt.trans d.isLt), hrem]
        exact hlt

theorem divRemU128_word {x : Uint BITS LIMBS} {d : U128} (hd : d ≠ 0)
    (hsmall : d.toNat < 2 ^ 64) :
    x.divRemU128 d = (x.divRemWord (lowWord d)).map
      fun s => (s.1, BitVec.ofNat 128 s.2.toNat) := by
  have hle : d.toNat ≤ UInt64.size - 1 := Nat.le_sub_one_of_lt hsmall
  rw [divRemU128, if_neg hd, if_pos hle]

theorem u128_operators_exact (hlimbs : 1 ≤ LIMBS) (x : Uint BITS LIMBS) :
    (x.value < 2 ^ BITS → ∀ d : U128, d ≠ 0 →
      ∃ q r, x.divRemU128 d = some (q, r) ∧
        x.value = q.value * d.toNat + r.toNat ∧ r.toNat < d.toNat ∧
        (d.toNat < 2 ^ 64 →
          ∃ w, x.divRemWord (lowWord d) = some (q, w) ∧ w.toNat = r.toNat)) ∧
    ∀ v : U128,
      (∃ sum, x.addU128 v = some sum ∧
        sum.value = (x.value + v.toNat) % 2 ^ (64 * LIMBS)) ∧
      (∃ diff, x.subU128 v = some diff ∧
        (diff.value : Int) =
          ((x.value : Int) - v.toNat) % (2 ^ (64 * LIMBS) : Nat)) ∧
      (x.mulU128 v).value = x.value * v.toNat % 2 ^ (64 * LIMBS) := by
  have hpow : radix ^ LIMBS = 2 ^ (64 * LIMBS) := by rw [radix, ← pow_mul]
  constructor
  · intro hx d hd
    obtain ⟨q, r, hdiv, hvalue, hlt⟩ := divRemU128_value hlimbs hx hd
    refine ⟨q, r, hdiv, hvalue, hlt, fun hsmall => ?_⟩
    rw [divRemU128_word hd hsmall, Option.map_eq_some_iff] at hdiv
    obtain ⟨⟨q', w⟩, hword, heq⟩ := hdiv
    obtain ⟨rfl, rfl⟩ := Prod.mk.inj heq
    refine ⟨w, hword, ?_⟩
    rw [BitVec.toNat_ofNat, Nat.mod_eq_of_lt]
    exact w.toNat_lt.trans (by decide)
  · intro v
    rw [← hpow]
    exact ⟨addU128_value hlimbs x v, subU128_value hlimbs x v,
      mulU128_value hlimbs x v⟩

/-- One limb and a divisor that needs two. -/
theorem u128_operators_exact_one_limb :
    ∃ q r, (⟨[7], rfl⟩ : Uint 64 1).divRemU128 0x10000000000000000#128 = some (q, r) ∧
      7 = q.value * 0x10000000000000000 + r.toNat ∧ r.toNat < 0x10000000000000000 := by
  obtain ⟨q, r, hdiv, hvalue, hlt, -⟩ :=
    (u128_operators_exact (by decide) (⟨[7], rfl⟩ : Uint 64 1)).1 (by
      simp [value]) 0x10000000000000000#128 (by decide)
  exact ⟨q, r, hdiv, hvalue, hlt⟩

end Uint

end Stdx.BigNumber
