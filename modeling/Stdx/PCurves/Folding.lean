import Mathlib
import Stdx.PCurves.FastMul

/-!
# Folding with wide accumulators

The value of a list of `u128` accumulators, and what carrying and folding do to it.  The
exact operations do not wrap; the wrapping ones agree with them as long as the
accumulators start from limbs.
-/

namespace Stdx.PCurves

open Stdx.Foundation
open Stdx.BigNumber

/-! ## Accumulators -/

@[grind =]
def accValue : List Nat → Nat
  | [] => 0
  | r :: rest => r + radix * accValue rest

def Digits (r : List Nat) : Prop := ∀ x ∈ r, x < radix

/-- Every accumulator is at most a limb and a product of limbs. -/
def Products (r : List Nat) : Prop := ∀ x ∈ r, x ≤ radix * (radix - 1)

theorem accValue_append (low high : List Nat) :
    accValue (low ++ high) = accValue low + radix ^ low.length * accValue high := by
  induction low with
  | nil => simp [accValue]
  | cons x low ih =>
    rw [List.cons_append, accValue, ih, accValue, List.length_cons, pow_succ]
    ring

theorem accValue_lt {r : List Nat} (h : Digits r) : accValue r < radix ^ r.length := by
  induction r with
  | nil => exact Nat.one_pos
  | cons x r ih =>
    have hx : x < radix := h x List.mem_cons_self
    have hr := ih fun y hy => h y (List.mem_cons_of_mem x hy)
    rw [accValue, List.length_cons, pow_succ]
    calc x + radix * accValue r
        < radix * (accValue r + 1) := by rw [Nat.mul_succ]; omega
      _ ≤ radix * radix ^ r.length := Nat.mul_le_mul_left _ hr
      _ = radix ^ r.length * radix := Nat.mul_comm _ _

theorem accValue_toNat (words : Limbs) : accValue (words.map UInt64.toNat) = limbsValue words := by
  induction words with
  | nil => rfl
  | cons word words ih => rw [List.map_cons, accValue, ih, limbsValue_cons]

theorem digits_toNat (words : Limbs) : Digits (words.map UInt64.toNat) := by
  intro x hx
  obtain ⟨word, -, rfl⟩ := List.mem_map.mp hx
  exact toNat_lt_radix word

/-! ## The exact operations -/

def carryExact (carry : Nat) : List Nat → List Nat
  | [] => []
  | [top] => [top + carry]
  | r :: rest => (r + carry) % 2 ^ 64 :: carryExact ((r + carry) / 2 ^ 64) rest

def addMulExact (r : List Nat) (w : Nat) (c : Limbs) : List Nat :=
  List.zipWith (fun x y => x + w * y.toNat) r c

def foldExact (c0 : Limbs) (r : List Nat) : List Nat :=
  let r := carryExact 0 r
  let top := r.getLastD 0
  addMulExact (r.dropLast ++ [top % 2 ^ 64]) (top / 2 ^ 64) c0

theorem wrap_add {x y : Nat} (hx : x ≤ radix * (radix - 1)) (hy : y < radix) :
    wrap (x + y) = x + y := by
  unfold radix at hx hy
  unfold wrap
  exact Nat.mod_eq_of_lt (by omega)

theorem mul_le_product {w y : Nat} (hw : w < radix) (hy : y < radix) :
    w * y ≤ (radix - 1) * (radix - 1) := Nat.mul_le_mul (by omega) (by omega)

theorem addMul_exact {r : List Nat} (h : Digits r) {w : Nat} (hw : w < radix) (c : Limbs) :
    addMul r w c = addMulExact r w c ∧ Products (addMulExact r w c) := by
  unfold addMul addMulExact
  induction r generalizing c with
  | nil => exact ⟨rfl, by simp [Products]⟩
  | cons x r ih =>
    cases c with
    | nil => exact ⟨rfl, by simp [Products]⟩
    | cons y c =>
      obtain ⟨heq, hproducts⟩ := ih (fun z hz => h z (List.mem_cons_of_mem x hz)) c
      have hx : x < radix := h x List.mem_cons_self
      have hmul := mul_le_product hw (toNat_lt_radix y)
      have hsum : x + w * y.toNat ≤ radix * (radix - 1) := by
        unfold radix at hx hmul ⊢
        omega
      have hmulWrap : wrap (w * y.toNat) = w * y.toNat := by
        unfold wrap
        unfold radix at hmul
        exact Nat.mod_eq_of_lt (by omega)
      have hsumWrap : wrap (x + w * y.toNat) = x + w * y.toNat := by
        unfold wrap
        unfold radix at hsum
        exact Nat.mod_eq_of_lt (by omega)
      rw [List.zipWith_cons_cons, List.zipWith_cons_cons, heq, hmulWrap, hsumWrap]
      refine ⟨rfl, fun z hz => ?_⟩
      obtain rfl | hz := List.mem_cons.mp hz
      · exact hsum
      · exact hproducts z hz

theorem addMulExact_value {r : List Nat} {c : Limbs} (h : r.length = c.length) (w : Nat) :
    accValue (addMulExact r w c) = accValue r + w * limbsValue c := by
  unfold addMulExact
  induction r generalizing c with
  | nil =>
    obtain rfl := List.length_eq_zero_iff.mp h.symm
    rfl
  | cons x r ih =>
    cases c with
    | nil => exact absurd h (by simp)
    | cons y c =>
      rw [List.zipWith_cons_cons, accValue, ih (by simpa using h), accValue, limbsValue_cons]
      ring

theorem carryPass_exact {r : List Nat} (h : Products r) {carry : Nat} (hcarry : carry < radix) :
    carryPass carry r = carryExact carry r := by
  induction r generalizing carry with
  | nil => rfl
  | cons x rest ih =>
    have hx := h x List.mem_cons_self
    have hwrap := wrap_add hx hcarry
    cases rest with
    | nil => exact congrArg (fun y => [y]) hwrap
    | cons y rest =>
      have hnext : (x + carry) / 2 ^ 64 < radix := by
        unfold radix at hx hcarry ⊢
        omega
      have hrest := ih (fun z hz => h z (List.mem_cons_of_mem x hz)) hnext
      change wrap (x + carry) % 2 ^ 64 :: carryPass (wrap (x + carry) / 2 ^ 64) (y :: rest) =
        (x + carry) % 2 ^ 64 :: carryExact ((x + carry) / 2 ^ 64) (y :: rest)
      rw [hwrap, hrest]

theorem carryExact_spec {r : List Nat} (hr : r ≠ []) (carry : Nat) :
    ∃ low top, carryExact carry r = low ++ [top] ∧ Digits low ∧ low.length + 1 = r.length ∧
      accValue low + radix ^ low.length * top = accValue r + carry := by
  induction r generalizing carry with
  | nil => exact absurd rfl hr
  | cons x rest ih =>
    cases rest with
    | nil =>
      refine ⟨[], x + carry, rfl, by simp [Digits], rfl, ?_⟩
      simp [accValue]
    | cons y rest =>
      obtain ⟨low, top, heq, hdigits, hlength, hvalue⟩ :=
        ih (List.cons_ne_nil y rest) ((x + carry) / 2 ^ 64)
      refine ⟨(x + carry) % 2 ^ 64 :: low, top, ?_, ?_, by simp [hlength], ?_⟩
      · change (x + carry) % 2 ^ 64 :: carryExact ((x + carry) / 2 ^ 64) (y :: rest) = _
        rw [heq, List.cons_append]
      · intro z hz
        obtain rfl | hz := List.mem_cons.mp hz
        · exact Nat.mod_lt _ (by decide)
        · exact hdigits z hz
      · have hsplit : (x + carry) % 2 ^ 64 + radix * ((x + carry) / 2 ^ 64) = x + carry :=
          Nat.mod_add_div (x + carry) radix
        rw [accValue, List.length_cons, pow_succ, accValue]
        linear_combination radix * hvalue + hsplit

def foldValue (bound c0 value : Nat) : Nat := value % bound + value / bound * c0

section

variable {c0 : Limbs} {r low : List Nat} {top : Nat}

theorem foldExact_parts (c0 : Limbs) (heq : carryExact 0 r = low ++ [top]) (hlow : Digits low)
    (hlen : low.length + 1 = r.length)
    (hvalue : accValue low + radix ^ low.length * top = accValue r + 0)
    (hr : accValue r < radix ^ r.length * radix) :
    Digits (low ++ [top % 2 ^ 64]) ∧ top / 2 ^ 64 < radix ∧
      foldExact c0 r = addMulExact (low ++ [top % 2 ^ 64]) (top / 2 ^ 64) c0 := by
  refine ⟨?_, ?_, ?_⟩
  · intro x hx
    obtain hx | hx := List.mem_append.mp hx
    · exact hlow x hx
    · rw [List.mem_singleton.mp hx]
      exact Nat.mod_lt _ (by decide)
  · refine Nat.div_lt_of_lt_mul (Nat.lt_of_mul_lt_mul_left (a := radix ^ low.length) ?_)
    rw [← hlen, pow_succ] at hr
    calc radix ^ low.length * top ≤ accValue r := by omega
      _ < radix ^ low.length * radix * radix := hr
      _ = radix ^ low.length * (radix * radix) := by ring
  · rw [foldExact, heq]
    simp

theorem foldExact_of_small (hlength : r.length = c0.length) (heq : carryExact 0 r = low ++ [top])
    (hlen : low.length + 1 = r.length) (hzero : top / 2 ^ 64 = 0) :
    foldExact c0 r = low ++ [top] := by
  have hsmall : top % 2 ^ 64 = top := Nat.mod_eq_of_lt (by omega)
  rw [foldExact, heq]
  simp only [List.getLastD_concat, List.dropLast_concat, hzero, hsmall, addMulExact, Nat.zero_mul,
    Nat.add_zero]
  refine List.ext_getElem (by simp; omega) fun i hi hi' => ?_
  simp

theorem foldExact_spec (hr : r ≠ []) (hlength : r.length = c0.length)
    (hr_lt : accValue r < radix ^ r.length * radix) :
    accValue (foldExact c0 r) = foldValue (radix ^ r.length) (limbsValue c0) (accValue r) ∧
      (foldExact c0 r).length = r.length ∧ Products (foldExact c0 r) ∧
      (accValue r < radix ^ r.length → Digits (foldExact c0 r)) := by
  obtain ⟨low, top, heq, hlow, hlen, hvalue⟩ := carryExact_spec hr 0
  obtain ⟨hdigits, hresidual, hfold⟩ := foldExact_parts c0 heq hlow hlen hvalue hr_lt
  have hsize : (low ++ [top % 2 ^ 64]).length = r.length := by simp [hlen]
  have hlt := accValue_lt hdigits
  rw [hsize] at hlt
  have hsplit : accValue r =
      accValue (low ++ [top % 2 ^ 64]) + radix ^ r.length * (top / 2 ^ 64) := by
    have htop : top % 2 ^ 64 + radix * (top / 2 ^ 64) = top := Nat.mod_add_div top radix
    rw [Nat.add_zero] at hvalue
    rw [accValue_append, accValue, accValue, ← hlen, pow_succ, ← hvalue]
    calc accValue low + radix ^ low.length * top
        = accValue low + radix ^ low.length * (top % 2 ^ 64 + radix * (top / 2 ^ 64)) := by
          rw [htop]
      _ = accValue low + radix ^ low.length * (top % 2 ^ 64 + radix * 0) +
            radix ^ low.length * radix * (top / 2 ^ 64) := by ring
  have hmod : accValue r % radix ^ r.length = accValue (low ++ [top % 2 ^ 64]) := by
    rw [hsplit, Nat.add_mul_mod_self_left, Nat.mod_eq_of_lt hlt]
  have hdiv : accValue r / radix ^ r.length = top / 2 ^ 64 := by
    rw [hsplit, Nat.add_mul_div_left _ _ (pow_pos radix_pos _), Nat.div_eq_of_lt hlt,
      Nat.zero_add]
  refine ⟨?_, ?_, ?_, fun hsmall => ?_⟩
  · rw [hfold, addMulExact_value (hsize.trans hlength), foldValue, hmod, hdiv]
  · rw [hfold, addMulExact, List.length_zipWith, hsize, ← hlength, Nat.min_self]
  · rw [hfold]
    exact (addMul_exact hdigits hresidual c0).2
  · have hzero : top / 2 ^ 64 = 0 := by rw [← hdiv, Nat.div_eq_of_lt hsmall]
    rw [foldExact_of_small hlength heq hlen hzero]
    rwa [Nat.mod_eq_of_lt (show top < 2 ^ 64 by omega)] at hdigits

end

/-! ## The wrapping passes -/

theorem ctSelectU128_eq {a b : Nat} (choice : Bool) (ha : a < 2 ^ 128) (hb : b < 2 ^ 128) :
    ctSelectU128 a b choice = if choice then a else b := by
  cases choice with
  | true =>
    simp only [ctSelectU128, if_true, Nat.sub_self, Nat.and_zero, Nat.or_zero]
    rw [Nat.and_two_pow_sub_one_eq_mod, Nat.mod_eq_of_lt ha]
  | false =>
    simp only [ctSelectU128, Bool.false_eq_true, if_false, Nat.and_zero, Nat.zero_or,
      Nat.sub_zero]
    rw [Nat.and_two_pow_sub_one_eq_mod, Nat.mod_eq_of_lt hb]

theorem zipWith_ctSelectU128 {a b : List Nat} (choice : Bool) (hlength : a.length = b.length)
    (ha : ∀ x ∈ a, x < 2 ^ 128) (hb : ∀ x ∈ b, x < 2 ^ 128) :
    List.zipWith (fun x y => ctSelectU128 x y choice) a b = if choice then a else b := by
  induction a generalizing b with
  | nil =>
    obtain rfl := List.length_eq_zero_iff.mp hlength.symm
    cases choice <;> rfl
  | cons x a ih =>
    cases b with
    | nil => exact absurd hlength (by simp)
    | cons y b =>
      have hrest := ih (by simpa using hlength) (fun z hz => ha z (List.mem_cons_of_mem x hz))
        (fun z hz => hb z (List.mem_cons_of_mem y hz))
      rw [List.zipWith_cons_cons, hrest,
        ctSelectU128_eq choice (ha x List.mem_cons_self) (hb y List.mem_cons_self)]
      cases choice <;> rfl

theorem Products.lt {r : List Nat} (h : Products r) : ∀ x ∈ r, x < 2 ^ 128 := by
  intro x hx
  have hle := h x hx
  unfold radix at hle
  omega

theorem foldPass_exact {c0 : Limbs} {r : List Nat} (hr : r ≠ []) (hlength : r.length = c0.length)
    (hproducts : Products r) (hr_lt : accValue r < radix ^ r.length * radix) :
    foldPass c0 r = foldExact c0 r := by
  obtain ⟨low, top, heq, hlow, hlen, hvalue⟩ := carryExact_spec hr 0
  obtain ⟨hdigits, hresidual, hfold⟩ := foldExact_parts c0 heq hlow hlen hvalue hr_lt
  obtain ⟨haddMul, hsum⟩ := addMul_exact hdigits hresidual c0
  have hpass : foldPass c0 r = List.zipWith
      (fun x y => ctSelectU128 x y (top / 2 ^ 64 != 0)) (foldExact c0 r) (low ++ [top]) := by
    unfold foldPass
    rw [carryPass_exact hproducts radix_pos, heq, hfold, ← haddMul]
    simp
  have hcarried : ∀ x ∈ low ++ [top], x < 2 ^ 128 := by
    intro x hx
    unfold radix at hresidual
    obtain hx | hx := List.mem_append.mp hx
    · have hlt := hlow x hx
      unfold radix at hlt
      omega
    · rw [List.mem_singleton.mp hx]
      omega
  have hlengths : (foldExact c0 r).length = (low ++ [top]).length := by
    rw [(foldExact_spec hr hlength hr_lt).2.1, List.length_append, ← hlen]
    rfl
  rw [hpass, zipWith_ctSelectU128 _ hlengths (by rw [hfold]; exact hsum.lt) hcarried]
  by_cases hzero : top / 2 ^ 64 = 0
  · -- there is nothing to fold
    rw [foldExact_of_small hlength heq hlen hzero, ite_self]
  · rw [if_pos (bne_iff_ne.mpr hzero)]

/-! ## Checked accumulators -/

/-- An addition of `u128` that overflows is `none`. -/
def addU128 (x y : Nat) : Option Nat := if x + y < 2 ^ 128 then some (x + y) else none

def mulU128 (x y : Nat) : Option Nat := if x * y < 2 ^ 128 then some (x * y) else none

def carryPassChecked (carry : Nat) : List Nat → Option (List Nat)
  | [] => some []
  | [top] => do
      let top ← addU128 top carry
      some [top]
  | r :: next :: rest => do
      let r ← addU128 r carry
      let rest ← carryPassChecked (r / 2 ^ 64) (next :: rest)
      some (r % 2 ^ 64 :: rest)

def addMulChecked (w : Nat) : List Nat → Limbs → Option (List Nat)
  | x :: r, y :: c => do
      let m ← mulU128 w y.toNat
      let s ← addU128 x m
      let rest ← addMulChecked w r c
      some (s :: rest)
  | _, _ => some []

def foldPassChecked (c0 : Limbs) (r : List Nat) : Option (List Nat) := do
  let r ← carryPassChecked 0 r
  let top := r.getLastD 0
  let residual := top / 2 ^ 64
  let reduced ← addMulChecked residual (r.dropLast ++ [top % 2 ^ 64]) c0
  some (if residual = 0 then r else reduced)

theorem carryPassChecked_eq {r : List Nat} (h : Products r) {carry : Nat}
    (hcarry : carry < radix) : carryPassChecked carry r = some (carryExact carry r) := by
  induction r generalizing carry with
  | nil => rfl
  | cons x rest ih =>
    have hx := h x List.mem_cons_self
    have hadd : addU128 x carry = some (x + carry) := by
      unfold radix at hx hcarry
      exact if_pos (by omega)
    cases rest with
    | nil => rw [carryPassChecked, hadd]; rfl
    | cons y rest =>
      have hnext : (x + carry) / 2 ^ 64 < radix := by
        unfold radix at hx hcarry ⊢
        omega
      have hrest := ih (fun z hz => h z (List.mem_cons_of_mem x hz)) hnext
      rw [carryPassChecked, hadd]
      simp only [Option.bind_eq_bind, Option.bind_some, hrest]
      rfl

theorem addMulChecked_eq {r : List Nat} (h : Digits r) {w : Nat} (hw : w < radix) (c : Limbs) :
    addMulChecked w r c = some (addMulExact r w c) := by
  induction r generalizing c with
  | nil => rfl
  | cons x r ih =>
    cases c with
    | nil => rfl
    | cons y c =>
      have hrest := ih (fun z hz => h z (List.mem_cons_of_mem x hz)) c
      have hx : x < radix := h x List.mem_cons_self
      have hmul := mul_le_product hw (toNat_lt_radix y)
      have hproduct : mulU128 w y.toNat = some (w * y.toNat) := by
        unfold radix at hmul
        exact if_pos (by omega)
      have hsum : addU128 x (w * y.toNat) = some (x + w * y.toNat) := by
        unfold radix at hx hmul
        exact if_pos (by omega)
      rw [addMulChecked, hproduct]
      simp only [Option.bind_eq_bind, Option.bind_some, hsum, hrest]
      rfl

theorem foldPassChecked_eq {c0 : Limbs} {r : List Nat} (hr : r ≠ [])
    (hlength : r.length = c0.length) (hproducts : Products r)
    (hr_lt : accValue r < radix ^ r.length * radix) :
    foldPassChecked c0 r = some (foldExact c0 r) := by
  obtain ⟨low, top, heq, hlow, hlen, hvalue⟩ := carryExact_spec hr 0
  obtain ⟨hdigits, hresidual, hfold⟩ := foldExact_parts c0 heq hlow hlen hvalue hr_lt
  rw [foldPassChecked, carryPassChecked_eq hproducts radix_pos, heq]
  simp only [Option.bind_eq_bind, Option.bind_some, List.getLastD_concat, List.dropLast_concat,
    addMulChecked_eq hdigits hresidual c0]
  split
  · next hzero => rw [foldExact_of_small hlength heq hlen hzero]
  · rw [hfold]

/-! ## Folding a product -/

/-- What a prime's coefficients have to satisfy: they are the powers of the radix from the
width on, and three passes bring the accumulators below the width. -/
structure Folds (coeffs : List Limbs) (p : Nat) : Prop where
  ne_nil : coeffs ≠ []
  length_eq : ∀ i < coeffs.length, (coeffs.getD i []).length = coeffs.length
  congr : ∀ i < coeffs.length,
    limbsValue (coeffs.getD i []) ≡ radix ^ (coeffs.length + i) [MOD p]
  settles : ∀ v < radix ^ coeffs.length * radix,
    foldValue (radix ^ coeffs.length) (limbsValue (coeffs.getD 0 []))
      (foldValue (radix ^ coeffs.length) (limbsValue (coeffs.getD 0 []))
        (foldValue (radix ^ coeffs.length) (limbsValue (coeffs.getD 0 [])) v)) <
      radix ^ coeffs.length

def foldLimb (coeffs : List Limbs) (prod : Limbs) (i : Nat) (r : List Nat) : List Nat :=
  forRange 0 4 (fun _ => foldPass (coeffs.getD 0 []))
    (addMul r (prod.getD (coeffs.length + i) 0).toNat (coeffs.getD i []))

def foldLimbs (coeffs : List Limbs) (prod : Limbs) (done : Nat) : List Nat :=
  forRange 0 done (foldLimb coeffs prod) ((prod.take coeffs.length).map UInt64.toNat)

def foldLimbChecked (coeffs : List Limbs) (prod : Limbs) (i : Nat) (r : List Nat) :
    Option (List Nat) := do
  let r ← addMulChecked (prod.getD (coeffs.length + i) 0).toNat r (coeffs.getD i [])
  forRange 0 4 (fun _ r => r.bind (foldPassChecked (coeffs.getD 0 []))) (some r)

def foldLimbsChecked (coeffs : List Limbs) (prod : Limbs) (done : Nat) : Option (List Nat) :=
  forRange 0 done (fun i r => r.bind (foldLimbChecked coeffs prod i))
    (some ((prod.take coeffs.length).map UInt64.toNat))

theorem foldLimbs_zero (coeffs : List Limbs) (prod : Limbs) :
    foldLimbs coeffs prod 0 = (prod.take coeffs.length).map UInt64.toNat := by
  rw [foldLimbs, forRange_zero]

theorem foldLimbsChecked_zero (coeffs : List Limbs) (prod : Limbs) :
    foldLimbsChecked coeffs prod 0 = some ((prod.take coeffs.length).map UInt64.toNat) := by
  rw [foldLimbsChecked, forRange_zero]

theorem foldLimbs_succ (coeffs : List Limbs) (prod : Limbs) (done : Nat) :
    foldLimbs coeffs prod (done + 1) =
      foldLimb coeffs prod done (foldLimbs coeffs prod done) := by
  rw [foldLimbs, forRange_snoc, Nat.zero_add, foldLimbs]

theorem foldProduct_eq (coeffs : List Limbs) (prod : Limbs) :
    foldProduct coeffs prod = foldLimbs coeffs prod coeffs.length := rfl

theorem foldLimbsChecked_succ (coeffs : List Limbs) (prod : Limbs) (done : Nat) :
    foldLimbsChecked coeffs prod (done + 1) =
      (foldLimbsChecked coeffs prod done).bind (foldLimbChecked coeffs prod done) := by
  rw [foldLimbsChecked, forRange_snoc, Nat.zero_add, foldLimbsChecked]

section Fold

variable {coeffs : List Limbs} {p : Nat}

theorem foldValue_lt {bound c0 v : Nat} (hc0 : c0 < bound) (hv : v < bound * radix) :
    foldValue bound c0 v < bound * radix := by
  have hbound : 0 < bound := by omega
  have hmod := Nat.mod_lt v hbound
  have hdiv : v / bound < radix := Nat.div_lt_of_lt_mul hv
  have hmul : v / bound * c0 ≤ (radix - 1) * bound := Nat.mul_le_mul (by omega) (by omega)
  have hsplit : bound * radix = (radix - 1) * bound + bound := by
    rw [Nat.mul_comm bound, ← Nat.succ_mul]
    exact congrArg (· * bound) (by decide)
  unfold foldValue
  omega

theorem foldValue_congr {bound c0 v : Nat} (h : c0 ≡ bound [MOD p]) :
    foldValue bound c0 v ≡ v [MOD p] := by
  have hsplit : v % bound + v / bound * bound = v := by
    rw [Nat.mul_comm]
    exact Nat.mod_add_div v bound
  calc foldValue bound c0 v = v % bound + v / bound * c0 := rfl
    _ ≡ v % bound + v / bound * bound [MOD p] := (h.mul_left _).add_left _
    _ = v := hsplit

/-- What the accumulators keep from pass to pass. -/
structure Ready (count : Nat) (r : List Nat) : Prop where
  length_eq : r.length = count
  products : Products r
  lt : accValue r < radix ^ count * radix

/-- One pass neither wraps nor fails, and changes the value by `foldValue`. -/
theorem Ready.pass {count : Nat} {c0 : Limbs} {r : List Nat} (h : Ready count r)
    (hpos : 0 < count) (hc0 : c0.length = count) :
    foldPass c0 r = foldExact c0 r ∧ foldPassChecked c0 r = some (foldExact c0 r) ∧
      Ready count (foldExact c0 r) ∧
      accValue (foldExact c0 r) = foldValue (radix ^ count) (limbsValue c0) (accValue r) ∧
      (accValue r < radix ^ count → Digits (foldExact c0 r)) := by
  obtain ⟨rfl, hproducts, hlt⟩ := h
  have hne : r ≠ [] := List.ne_nil_of_length_pos hpos
  have hc0_lt := limbsValue_lt c0
  rw [hc0] at hc0_lt
  obtain ⟨hvalue, hlength, hproducts', hdigits⟩ := foldExact_spec hne hc0.symm hlt
  refine ⟨foldPass_exact hne hc0.symm hproducts hlt,
    foldPassChecked_eq hne hc0.symm hproducts hlt, ⟨hlength, hproducts', ?_⟩, hvalue, hdigits⟩
  rw [hvalue]
  exact foldValue_lt hc0_lt hlt

theorem fourPasses (h : Folds coeffs p) {r : List Nat} (hr : Ready coeffs.length r) :
    forRange 0 4 (fun _ => foldPass (coeffs.getD 0 [])) r =
        forRange 0 4 (fun _ => foldExact (coeffs.getD 0 [])) r ∧
      forRange 0 4 (fun _ r => r.bind (foldPassChecked (coeffs.getD 0 []))) (some r) =
        some (forRange 0 4 (fun _ => foldExact (coeffs.getD 0 [])) r) ∧
      Digits (forRange 0 4 (fun _ => foldExact (coeffs.getD 0 [])) r) ∧
      (forRange 0 4 (fun _ => foldExact (coeffs.getD 0 [])) r).length = coeffs.length ∧
      accValue (forRange 0 4 (fun _ => foldExact (coeffs.getD 0 [])) r) ≡
        accValue r [MOD p] := by
  have hpos : 0 < coeffs.length := List.length_pos_of_ne_nil h.ne_nil
  have hc0 := h.length_eq 0 hpos
  have hmod : limbsValue (coeffs.getD 0 []) ≡ radix ^ coeffs.length [MOD p] := h.congr 0 hpos
  have hsettles := h.settles (accValue r) hr.lt
  generalize coeffs.getD 0 [] = c0 at *
  obtain ⟨e1, k1, r1, v1, -⟩ := hr.pass hpos hc0
  obtain ⟨e2, k2, r2, v2, -⟩ := r1.pass hpos hc0
  obtain ⟨e3, k3, r3, v3, -⟩ := r2.pass hpos hc0
  obtain ⟨e4, k4, r4, v4, d4⟩ := r3.pass hpos hc0
  -- the third pass comes below the width, so the fourth one only carries
  rw [← v1, ← v2, ← v3] at hsettles
  simp only [forRange_succ, forRange_zero, Option.bind_some, e1, e2, e3, e4, k1, k2, k3, k4]
  refine ⟨trivial, trivial, d4 hsettles, r4.length_eq, ?_⟩
  rw [v4, v3, v2, v1]
  exact (foldValue_congr hmod).trans ((foldValue_congr hmod).trans
    ((foldValue_congr hmod).trans (foldValue_congr hmod)))

/-- After each high limb the accumulators are limbs again, with the value of the product so
far; no addition or multiplication has wrapped. -/
theorem foldLimbs_spec (h : Folds coeffs p) {prod : Limbs}
    (hprod : prod.length = 2 * coeffs.length) {done : Nat} (hdone : done ≤ coeffs.length) :
    foldLimbsChecked coeffs prod done = some (foldLimbs coeffs prod done) ∧
      Digits (foldLimbs coeffs prod done) ∧
      (foldLimbs coeffs prod done).length = coeffs.length ∧
      accValue (foldLimbs coeffs prod done) ≡
        limbsValue (prod.take (coeffs.length + done)) [MOD p] := by
  induction done with
  | zero =>
    rw [foldLimbs_zero, foldLimbsChecked_zero]
    refine ⟨rfl, digits_toNat _, ?_, ?_⟩
    · rw [List.length_map, List.length_take, hprod]
      omega
    · rw [accValue_toNat, Nat.add_zero]
  | succ done ih =>
    obtain ⟨hchecked, hdigits, hlength, hvalue⟩ := ih (by omega)
    have hw := toNat_lt_radix (prod.getD (coeffs.length + done) 0)
    have hc := h.length_eq done hdone
    have hc_lt := limbsValue_lt (coeffs.getD done [])
    rw [hc] at hc_lt
    obtain ⟨haddMul, hproducts⟩ := addMul_exact hdigits hw (coeffs.getD done [])
    have haddMulChecked := addMulChecked_eq hdigits hw (coeffs.getD done [])
    have hsum := addMulExact_value (hlength.trans hc.symm)
      (prod.getD (coeffs.length + done) 0).toNat
    have hlt := accValue_lt hdigits
    rw [hlength] at hlt
    have hready : Ready coeffs.length (addMulExact (foldLimbs coeffs prod done)
        (prod.getD (coeffs.length + done) 0).toNat (coeffs.getD done [])) := by
      refine ⟨?_, hproducts, ?_⟩
      · rw [addMulExact, List.length_zipWith, hlength, hc, Nat.min_self]
      · rw [hsum]
        calc accValue (foldLimbs coeffs prod done) +
              (prod.getD (coeffs.length + done) 0).toNat * limbsValue (coeffs.getD done [])
            ≤ accValue (foldLimbs coeffs prod done) + (radix - 1) * radix ^ coeffs.length :=
              Nat.add_le_add_left (Nat.mul_le_mul (by omega) hc_lt.le) _
          _ < radix ^ coeffs.length + (radix - 1) * radix ^ coeffs.length :=
              Nat.add_lt_add_right hlt _
          _ = radix ^ coeffs.length * radix := by
              rw [Nat.add_comm, ← Nat.succ_mul, Nat.mul_comm]
              exact congrArg (radix ^ coeffs.length * ·) (by decide)
    obtain ⟨hpasses, hpassesChecked, hdigits', hlength', hvalue'⟩ := fourPasses h hready
    have htake : limbsValue (prod.take (coeffs.length + (done + 1))) =
        limbsValue (prod.take (coeffs.length + done)) +
          radix ^ (coeffs.length + done) * (prod.getD (coeffs.length + done) 0).toNat := by
      have hin : coeffs.length + done < prod.length := by omega
      rw [← Nat.add_assoc, List.take_add_one, limbsValue_append, List.length_take,
        Nat.min_eq_left hin.le, List.getD_eq_getElem?_getD, List.getElem?_eq_getElem hin]
      simp
    rw [foldLimbsChecked_succ, hchecked, Option.bind_some, foldLimbs_succ, foldLimbChecked,
      haddMulChecked, foldLimb, haddMul, hpasses]
    refine ⟨hpassesChecked, hdigits', hlength', hvalue'.trans ?_⟩
    rw [hsum, htake, Nat.mul_comm (radix ^ (coeffs.length + done))]
    exact hvalue.add ((h.congr done hdone).mul_left _)

end Fold

/-! ## The product and the last subtractions -/

section Reduction

variable {BITS LIMBS : Nat}

theorem subtractRepeatedly_value {modulus : Uint BITS LIMBS} {count : Nat}
    {x : Uint BITS LIMBS} (hx : x.value < (count + 1) * modulus.value) :
    (subtractRepeatedly modulus count x).value = x.value % modulus.value := by
  unfold subtractRepeatedly
  suffices h : ∀ start, (forRange start count (fun _ result =>
      Uint.ctSelect (result.subRaw modulus).1 result ((result.subRaw modulus).2 == 0)) x).value =
        x.value % modulus.value from h 0
  induction count generalizing x with
  | zero =>
    intro start
    rw [Nat.zero_add, Nat.one_mul] at hx
    exact (Nat.mod_eq_of_lt hx).symm
  | succ count ih =>
    intro start
    obtain ⟨hsub, hle⟩ := Uint.subRaw_value x modulus
    rw [forRange_succ]
    rw [Uint.ctSelect_eq, Uint.subRaw_borrow]
    rw [Uint.subRaw_borrow] at hsub
    by_cases hlt : x.value < modulus.value
    · rw [if_pos hlt]
      exact ih (by
        refine hlt.trans_le ?_
        exact Nat.le_mul_of_pos_left _ (Nat.succ_pos count)) (start + 1)
    · rw [if_neg hlt] at hsub ⊢
      have hvalue : (x.subRaw modulus).1.value = x.value - modulus.value := by
        simp only [UInt64.toNat_zero, Nat.mul_zero, Nat.add_zero] at hsub
        omega
      have hrest := ih (x := (x.subRaw modulus).1) (by
        rw [hvalue]
        rw [Nat.succ_mul] at hx
        omega) (start + 1)
      rw [hvalue] at hrest
      exact hrest.trans (Nat.mod_eq_sub_mod (by omega)).symm

theorem cast_value {r : List Nat} (hdigits : Digits r) (hlength : r.length = LIMBS) :
    limbsValue ((List.range LIMBS).map fun i => UInt64.ofNat (r.getD i 0)) = accValue r := by
  have hmap : (List.range LIMBS).map (fun i => UInt64.ofNat (r.getD i 0)) =
      r.map UInt64.ofNat := by
    refine List.ext_getElem (by simp [hlength]) fun i hi hi' => ?_
    rw [List.length_map] at hi'
    simp [hi']
  rw [hmap]
  clear hmap hlength
  induction r with
  | nil => rfl
  | cons x r ih =>
    have hx : x < radix := hdigits x List.mem_cons_self
    rw [List.map_cons, limbsValue_cons, accValue, toNat_ofNat_radix, Nat.mod_eq_of_lt hx,
      ih fun y hy => hdigits y (List.mem_cons_of_mem x hy)]

end Reduction

end Stdx.PCurves
