import Mathlib.Data.List.GetD
import Stdx.PCurves.Folding
import Stdx.PCurves.P256
import Stdx.PCurves.P384
import Stdx.PCurves.P521

/-!
# The fast multiplications are exact

`fastMulMod` of P-256 and P-384 folds without wrapping, comes back to limbs behind every
high limb and returns the product modulo the prime.  P-521 adds the halves of the product
at bit 521.
-/

namespace Stdx.PCurves

open Stdx.Foundation
open Stdx.BigNumber

theorem product_spec (a b : Limbs) :
    (product a b).length = a.length + b.length ∧
      limbsValue (product a b) = limbsValue a * limbsValue b :=
  productRows_zeros a b

/-! ## P-256 and P-384 -/

section Fold

variable {BITS LIMBS : Nat}

/-- Nothing is lost in a multiplication: the operations checked for overflow succeed up to
every high limb, the passes behind it end in limbs, and the casts keep every accumulator. -/
structure Exact (coeffs : List Limbs) (a b : Uint BITS LIMBS) : Prop where
  checked : ∀ done ≤ coeffs.length, foldLimbsChecked coeffs (product a.limbs b.limbs) done =
    some (foldLimbs coeffs (product a.limbs b.limbs) done)
  digits : ∀ done ≤ coeffs.length, Digits (foldLimbs coeffs (product a.limbs b.limbs) done)
  cast : ∀ i < LIMBS, (UInt64.ofNat ((foldProduct coeffs
    (product a.limbs b.limbs)).getD i 0)).toNat =
      (foldProduct coeffs (product a.limbs b.limbs)).getD i 0

theorem fastMulMod_spec {coeffs : List Limbs} {modulus : Uint BITS LIMBS}
    (h : Folds coeffs modulus.value) (hcount : coeffs.length = LIMBS)
    (hmodulus : radix ^ LIMBS ≤ 9 * modulus.value) (a b : Uint BITS LIMBS) :
    Exact coeffs a b ∧
      (fastMulMod coeffs modulus a b).value = a.value * b.value % modulus.value := by
  subst hcount
  obtain ⟨hlength, hvalue⟩ := product_spec a.limbs b.limbs
  rw [a.length_eq, b.length_eq, ← Nat.two_mul] at hlength
  have hspec := fun done (hdone : done ≤ coeffs.length) => foldLimbs_spec h hlength hdone
  obtain ⟨-, hdigits, hcount, hmod⟩ := hspec coeffs.length le_rfl
  rw [← foldProduct_eq] at hdigits hcount hmod
  refine ⟨⟨fun done hdone => (hspec done hdone).1, fun done hdone => (hspec done hdone).2.1,
    fun i hi => ?_⟩, ?_⟩
  · have hin : i < (foldProduct coeffs (product a.limbs b.limbs)).length := hcount.symm ▸ hi
    rw [toNat_ofNat_radix]
    refine Nat.mod_eq_of_lt (hdigits _ ?_)
    rw [List.getD_eq_getElem?_getD, List.getElem?_eq_getElem hin]
    exact List.getElem_mem hin
  · have hlt := accValue_lt hdigits
    rw [hcount] at hlt
    rw [← Nat.two_mul, ← hlength, List.take_length, hvalue] at hmod
    have hcast := cast_value hdigits hcount
    rw [fastMulMod, subtractRepeatedly_value]
    · exact (congrArg (· % modulus.value) hcast).trans hmod
    · exact (hcast.trans_lt hlt).trans_le hmodulus

end Fold

namespace P256

theorem folds : Folds coeffs MODULUS_P.value where
  ne_nil := by decide
  length_eq := by decide
  congr := by decide
  settles := by
    have hc0 : limbsValue (coeffs.getD 0 []) =
        26959946660873538059280334323183841250350249843923952699046031785985 := by decide
    have hbound : radix ^ coeffs.length = 2 ^ 256 := by decide
    rw [hc0, hbound]
    unfold foldValue radix
    omega

end P256

namespace P384

theorem folds : Folds coeffs MODULUS_P.value where
  ne_nil := by decide
  length_eq := by decide
  congr := by decide
  settles := by
    have hc0 : limbsValue (coeffs.getD 0 []) =
        340282366920938463463374607431768211456 + 2 ^ 96 - 2 ^ 32 + 1 := by decide
    have hbound : radix ^ coeffs.length = 2 ^ 384 := by decide
    rw [hc0, hbound]
    unfold foldValue radix
    omega

end P384

theorem fastMulMod_exact :
    (∀ a b : Uint 256 4, a.value < P256.MODULUS_P.value → b.value < P256.MODULUS_P.value →
      Exact P256.coeffs a b ∧
        (P256.fastMulMod a b).value = a.value * b.value % P256.MODULUS_P.value ∧
        (P256.fastMulMod a b).value < P256.MODULUS_P.value) ∧
    ∀ a b : Uint 384 6, a.value < P384.MODULUS_P.value → b.value < P384.MODULUS_P.value →
      Exact P384.coeffs a b ∧
        (P384.fastMulMod a b).value = a.value * b.value % P384.MODULUS_P.value ∧
        (P384.fastMulMod a b).value < P384.MODULUS_P.value := by
  constructor
  · intro a b _ _
    obtain ⟨hexact, hvalue⟩ := fastMulMod_spec P256.folds rfl (by decide) a b
    refine ⟨hexact, hvalue, hvalue.trans_lt (Nat.mod_lt _ (by decide))⟩
  · intro a b _ _
    obtain ⟨hexact, hvalue⟩ := fastMulMod_spec P384.folds rfl (by decide) a b
    refine ⟨hexact, hvalue, hvalue.trans_lt (Nat.mod_lt _ (by decide))⟩

theorem fastMulMod_exact_generator :
    (P256.fastMulMod P256.GENERATOR_X P256.GENERATOR_Y).value =
        P256.GENERATOR_X.value * P256.GENERATOR_Y.value % P256.MODULUS_P.value ∧
      (P384.fastMulMod P384.GENERATOR_X P384.GENERATOR_Y).value =
        P384.GENERATOR_X.value * P384.GENERATOR_Y.value % P384.MODULUS_P.value :=
  ⟨(fastMulMod_exact.1 _ _ (by decide) (by decide)).2.1,
    (fastMulMod_exact.2 _ _ (by decide) (by decide)).2.1⟩

/-! ## P-521 -/

def shiftedWords (words : Limbs) : Limbs :=
  List.zipWith (fun (x y : UInt64) => (x >>> 9) ||| (y <<< 55)) words words.tail

private theorem shifted_word_nine (x y : UInt64) :
    ((x >>> 9) ||| (y <<< 55)).toNat = x.toNat / 512 + 2 ^ 55 * (y.toNat % 512) := by
  have hx := toNat_lt_radix x
  have hshift : (x >>> 9).toNat = x.toNat / 512 := by simp [Nat.shiftRight_eq_div_pow]
  have hleft : (y <<< 55).toNat = 2 ^ 55 * (y.toNat % 512) := by
    simp only [UInt64.toNat_shiftLeft]
    rw [show (55 : UInt64).toNat % 64 = 55 from rfl, Nat.shiftLeft_eq]
    omega
  have hlow : x.toNat / 512 < 2 ^ 55 := by
    unfold radix at hx
    omega
  rw [UInt64.toNat_or, hshift, hleft, Nat.or_comm, ← Nat.two_pow_add_eq_or_of_lt hlow,
    Nat.add_comm]

theorem shiftedWords_value (word : UInt64) (words : Limbs) :
    limbsValue (shiftedWords (word :: words)) =
      limbsValue (word :: words) / 512 % radix ^ words.length := by
  induction words generalizing word with
  | nil => simp [shiftedWords, Nat.mod_one]
  | cons next words ih =>
    have hsplit : limbsValue (word :: next :: words) / 512 =
        ((word >>> 9) ||| (next <<< 55)).toNat +
          radix * (limbsValue (next :: words) / 512) := by
      have hnext : limbsValue (next :: words) % 512 = next.toNat % 512 := by
        rw [limbsValue_cons]
        unfold radix
        omega
      rw [shifted_word_nine, limbsValue_cons, ← hnext]
      unfold radix
      omega
    have hcons : shiftedWords (word :: next :: words) =
        ((word >>> 9) ||| (next <<< 55)) :: shiftedWords (next :: words) := rfl
    rw [hcons, limbsValue_cons, ih, hsplit, List.length_cons, pow_succ', word_add_mod]

namespace P521

def low (prod : Limbs) : Uint 521 9 :=
  ⟨(List.range 9).map fun j =>
    if j < 8 then prod.getD j 0 else prod.getD 8 0 &&& 0x1ff, by simp⟩

def high (prod : Limbs) : Uint 521 9 :=
  ⟨(List.range 9).map fun j =>
    (prod.getD (8 + j) 0 >>> 9) ||| (prod.getD (9 + j) 0 <<< 55), by simp⟩

theorem fastMulMod_eq (a b : Uint 521 9) :
    fastMulMod a b = subtractRepeatedly MODULUS_P 2
      ((low (product a.limbs b.limbs)).addRaw (high (product a.limbs b.limbs))).1 := rfl

variable {prod : Limbs}

theorem low_value (h : prod.length = 18) : (low prod).value = limbsValue prod % 2 ^ 521 := by
  have hlimbs : (low prod).limbs = prod.take 8 ++ [prod.getD 8 0 &&& 0x1ff] := by
    refine List.ext_getElem (by simp [low, h]) fun i hi hi' => ?_
    simp only [low, List.length_map, List.length_range] at hi
    obtain hlt | rfl : i < 8 ∨ i = 8 := by omega
    · have hin : i < prod.length := by omega
      simp only [low, List.getElem_map, List.getElem_range, if_pos hlt,
        List.getD_eq_getElem _ _ hin]
      rw [List.getElem_append_left (by simp; omega), List.getElem_take]
    · simp [low, h]
  have hword : (prod.getD 8 0 &&& 0x1ff : UInt64).toNat =
      limbsValue prod / radix ^ 8 % 512 := by
    have hdrop : prod.drop 8 = prod.getD 8 0 :: prod.drop 9 := by
      rw [List.drop_eq_getElem_cons (by omega : 8 < prod.length)]
      simp [h]
    rw [← limbsValue_drop, hdrop, limbsValue_cons, UInt64.toNat_and]
    change (prod.getD 8 0).toNat &&& (2 ^ 9 - 1) = _
    rw [Nat.and_two_pow_sub_one_eq_mod]
    unfold radix
    omega
  have hlength : (prod.take 8).length = 8 := by simp [h]
  rw [Uint.value, hlimbs, limbsValue_append, hlength, limbsValue_take, limbsValue_cons,
    limbsValue_nil, hword, show 2 ^ 521 = radix ^ 8 * 512 from by decide +kernel, Nat.mod_mul]
  rfl

theorem high_value (h : prod.length = 18) :
    (high prod).value = limbsValue prod / 2 ^ 521 % radix ^ 9 := by
  have hdrop : prod.drop 8 = prod.getD 8 0 :: prod.drop 9 := by
    rw [List.drop_eq_getElem_cons (by omega : 8 < prod.length)]
    simp [h]
  have hlimbs : (high prod).limbs = shiftedWords (prod.drop 8) := by
    refine List.ext_getElem (by simp [high, shiftedWords, h]) fun i hi hi' => ?_
    simp only [high, List.length_map, List.length_range] at hi
    have hin : 8 + i < prod.length := by omega
    have hnext : 9 + i < prod.length := by omega
    have htail : (prod.drop 8).tail = prod.drop 9 := List.tail_drop
    simp only [high, shiftedWords, List.getElem_map, List.getElem_range,
      List.getD_eq_getElem _ _ hin, List.getD_eq_getElem _ _ hnext, htail, List.getElem_zipWith,
      List.getElem_drop]
  rw [Uint.value, hlimbs, hdrop, shiftedWords_value, ← hdrop, limbsValue_drop,
    Nat.div_div_eq_div_mul, List.length_drop, h]
  exact congrArg (fun n => limbsValue prod / n % radix ^ 9)
    (by decide +kernel : radix ^ 8 * 512 = 2 ^ 521)

theorem fastMulMod_halves (a b : Uint 521 9) (ha : a.value < MODULUS_P.value)
    (hb : b.value < MODULUS_P.value) :
    (low (product a.limbs b.limbs)).value = a.value * b.value % 2 ^ 521 ∧
      (high (product a.limbs b.limbs)).value = a.value * b.value / 2 ^ 521 ∧
      ((low (product a.limbs b.limbs)).addRaw (high (product a.limbs b.limbs))).2 = 0 ∧
      fastMulMod a b = subtractRepeatedly MODULUS_P 2
        ((low (product a.limbs b.limbs)).addRaw (high (product a.limbs b.limbs))).1 ∧
      (fastMulMod a b).value = a.value * b.value % MODULUS_P.value ∧
      (fastMulMod a b).value < MODULUS_P.value := by
  have hp : MODULUS_P.value = 2 ^ 521 - 1 := by decide +kernel
  obtain ⟨hlength, hvalue⟩ := product_spec a.limbs b.limbs
  rw [a.length_eq, b.length_eq] at hlength
  have hlow := low_value hlength
  have hhigh := high_value hlength
  rw [hvalue] at hlow hhigh
  change _ = a.value * b.value % 2 ^ 521 at hlow
  change _ = a.value * b.value / 2 ^ 521 % radix ^ 9 at hhigh
  have hproduct : a.value * b.value ≤ (2 ^ 521 - 2) * (2 ^ 521 - 2) :=
    Nat.mul_le_mul (by omega) (by omega)
  generalize a.value * b.value = n at hlow hhigh hproduct ⊢
  have hwide : n / 2 ^ 521 < 2 ^ 521 - 1 := by omega
  rw [Nat.mod_eq_of_lt (by unfold radix; omega)] at hhigh
  have hadd := Uint.addRaw_value (low (product a.limbs b.limbs)) (high (product a.limbs b.limbs))
  rw [hlow, hhigh] at hadd
  have hcarry : ((low (product a.limbs b.limbs)).addRaw
      (high (product a.limbs b.limbs))).2.toNat = 0 := by
    unfold radix at hadd
    omega
  rw [hcarry, Nat.mul_zero, Nat.add_zero] at hadd
  -- the halves sum to at most `2p`, and to the product modulo `p`
  have hmod : (n % 2 ^ 521 + n / 2 ^ 521) % MODULUS_P.value = n % MODULUS_P.value := by
    have hn : n = n % 2 ^ 521 + n / 2 ^ 521 + MODULUS_P.value * (n / 2 ^ 521) := by
      rw [hp]
      omega
    conv_rhs => rw [hn, Nat.add_mul_mod_self_left]
  have hresult : (fastMulMod a b).value = n % MODULUS_P.value := by
    rw [fastMulMod_eq, subtractRepeatedly_value (by rw [hadd, hp]; omega), hadd, hmod]
  exact ⟨hlow, hhigh, UInt64.toNat_inj.mp hcarry, fastMulMod_eq a b, hresult,
    hresult.trans_lt (Nat.mod_lt _ (by rw [hp]; decide +kernel))⟩

theorem fastMulMod_halves_generator :
    (fastMulMod GENERATOR_X GENERATOR_Y).value =
      GENERATOR_X.value * GENERATOR_Y.value % MODULUS_P.value :=
  (fastMulMod_halves GENERATOR_X GENERATOR_Y (by decide) (by decide)).2.2.2.2.1

end P521

end Stdx.PCurves
