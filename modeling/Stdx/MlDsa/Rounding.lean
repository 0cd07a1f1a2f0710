import Stdx.MlDsa.RoundTrip

/-!
# Rounding

`power2round`, `decompose` and the hints cut a coefficient into a high part and a
small rest.  `gamma` is half the width of a class of high parts and there are
`den / 2` of them, the last coefficients falling into the class of zero.
-/

namespace Stdx.MlDsa

open Stdx.Foundation

/-! ## Centered values -/

theorem shift_cases {x y : Nat} {e : Int} (hx : x < Q) (hy : y < Q) (hlo : -(Q : Int) < e)
    (hhi : e < Q) (h : (y : F) = x + e) :
    (y : Int) = x + e ∨ (y : Int) = x + e + Q ∨ (y : Int) = x + e - Q := by
  have hcast : ((y : Int) : F) = ((x + e : Int) : F) := by
    push_cast
    exact h
  rw [ZMod.intCast_eq_intCast_iff, Int.modEq_iff_dvd] at hcast
  simp only [Q] at *
  omega

theorem and_signMask {t a : Nat} (ha : a < 2 ^ 32) :
    signMask t &&& a = if t < 2 ^ 31 then 0 else a := by
  rw [signMask]
  split
  · exact Nat.zero_and a
  · rw [Nat.and_comm, Nat.and_two_pow_sub_one_eq_mod, Nat.mod_eq_of_lt ha]

theorem and_not_signMask {t a : Nat} (ha : a < 2 ^ 32) :
    (2 ^ 32 - 1 - signMask t) &&& a = if t < 2 ^ 31 then a else 0 := by
  rw [signMask]
  split
  · rw [Nat.sub_zero, Nat.and_comm, Nat.and_two_pow_sub_one_eq_mod, Nat.mod_eq_of_lt ha]
  · rw [Nat.sub_self, Nat.zero_and]

theorem fieldInfinityNorm_eq {r : Nat} (hr : r < Q) :
    fieldInfinityNorm r = (fieldCenteredMod r).natAbs := by
  have hlt := (fieldFromMontgomery_spec hr).1
  rw [fieldInfinityNorm, fieldCenteredMod]
  generalize fieldFromMontgomery r = x at hlt
  simp only [Q] at hlt ⊢
  have hx : x < 2 ^ 32 := by omega
  have hflip : 8380417 - x < 2 ^ 32 := by omega
  simp only [select, and_signMask hflip, and_not_signMask hx, wrappingSub, selectNeg,
    Int.shiftRight_eq_div_pow]
  split
  · rw [Nat.zero_or, if_neg (by omega), Int.natAbs_natCast]
  · rw [Nat.or_zero, if_pos (by omega)]
    omega

theorem centered_of_norm {r bound : Nat} (hr : r < Q) (h : fieldInfinityNorm r < bound) :
    ((fieldCenteredMod r : Int) : F) = value r ∧ (fieldCenteredMod r).natAbs < bound := by
  rw [fieldInfinityNorm_eq hr] at h
  exact ⟨(fieldCenteredMod_spec (hr.le.trans (by decide))).1, h⟩

/-! ## `power2round` -/

theorem power2round_eq (r : Nat) :
    power2round r = ((fieldFromMontgomery r + 4095) / 2 ^ 13,
      fieldSubToMontgomery (fieldFromMontgomery r)
        ((fieldFromMontgomery r + 4095) / 2 ^ 13 * 2 ^ 13)) := by
  have hround (x : Nat) : x + 2 ^ 12 - 1 = x + 4095 := by omega
  simp only [power2round, Nat.shiftRight_eq_div_pow, Nat.shiftLeft_eq, Nat.one_mul, hround]

theorem power2round_spec {r : Nat} (hr : r < Q) :
    (power2round r).1 < 2 ^ 10 ∧ (power2round r).1 <<< D < Q ∧ (power2round r).2 < Q ∧
      value r = (((power2round r).1 <<< D : Nat) : F) + value (power2round r).2 := by
  obtain ⟨hlt, hcast⟩ := fieldFromMontgomery_spec hr
  rw [power2round_eq]
  generalize fieldFromMontgomery r = x at hlt hcast ⊢
  simp only [Nat.shiftLeft_eq, D]
  simp only [Q] at hlt
  have hhigh : (x + 4095) / 2 ^ 13 < 2 ^ 10 := by omega
  have hle : (x + 4095) / 2 ^ 13 * 2 ^ 13 ≤ x + 4095 := Nat.div_mul_le_self _ _
  have hge : x ≤ (x + 4095) / 2 ^ 13 * 2 ^ 13 + 4096 := by omega
  have hbelow : (x + 4095) / 2 ^ 13 * 2 ^ 13 < Q := by
    simp only [Q]
    omega
  generalize (x + 4095) / 2 ^ 13 = t1 at *
  obtain ⟨hreduced, hvalue⟩ := fieldSubToMontgomery_spec (a := x) (b := t1 * 2 ^ 13)
    (by simp only [Q]; omega) (hle.trans (Nat.add_le_add_left (by decide) x))
    (hge.trans (Nat.add_le_add_left (by decide) _))
  refine ⟨hhigh, hbelow, hreduced, ?_⟩
  rw [hvalue, ← hcast]
  ring

/-! ## High and low parts -/

def Rounds (den gamma : Nat) : Prop := den = 32 ∧ gamma = 261888 ∨ den = 88 ∧ gamma = 95232

theorem highbits32_eq {x : Nat} (hx : x < Q) : highbits32 x = (x + 261887) / 523776 % 16 := by
  have hclass : ((x + 127) / 2 ^ 7 * 1025 + 1 <<< 21) / 2 ^ 22 = (x + 261887) / 523776 := by
    simp only [Q] at hx
    rw [show 1 <<< 21 = 2097152 from rfl]
    omega
  simp only [highbits32, Nat.shiftRight_eq_div_pow, and_mask4]
  rw [hclass]

theorem zero_class {r : Nat} (hr : r ≤ 44) :
    r * ((r ^^^ 44 ||| wrappingSub 0 (r ^^^ 44)) / 2 ^ 31) = r % 44 := by
  interval_cases r <;> rfl

theorem highbits88_eq {x : Nat} (hx : x < Q) : highbits88 x = (x + 95231) / 190464 % 44 := by
  simp only [Q] at hx
  have hclass : ((x + 127) / 2 ^ 7 * 11275 + 1 <<< 23) / 2 ^ 24 = (x + 95231) / 190464 := by
    rw [show 1 <<< 23 = 8388608 from rfl]
    omega
  have hle : (x + 95231) / 190464 ≤ 44 := by omega
  simp only [highbits88, Nat.shiftRight_eq_div_pow]
  rw [hclass, zero_class hle]

theorem highbits_32 (x : Nat) : highbits x 32 = highbits32 x := by
  unfold highbits
  split <;> simp_all

theorem highbits_88 (x : Nat) : highbits x 88 = highbits88 x := by
  unfold highbits
  split <;> simp_all

theorem decompose_32 (r : Nat) : decompose r 32 = decompose32 r := by
  unfold decompose
  split <;> simp_all

theorem decompose_88 (r : Nat) : decompose r 88 = decompose88 r := by
  unfold decompose
  split <;> simp_all

section Classes

variable {den gamma : Nat}

theorem highbits_eq (h : Rounds den gamma) {x : Nat} (hx : x < Q) :
    highbits x den = (x + gamma - 1) / (2 * gamma) % (den / 2) := by
  obtain ⟨rfl, rfl⟩ | ⟨rfl, rfl⟩ := h
  · have hclass : (x + 261887) / 523776 % 16 = (x + 261888 - 1) / (2 * 261888) % (32 / 2) := by
      omega
    exact ((highbits_32 x).trans (highbits32_eq hx)).trans hclass
  · have hclass : (x + 95231) / 190464 % 44 = (x + 95232 - 1) / (2 * 95232) % (88 / 2) := by
      omega
    exact ((highbits_88 x).trans (highbits88_eq hx)).trans hclass

theorem highbits_lt (h : Rounds den gamma) {x : Nat} (hx : x < Q) :
    highbits x den < den / 2 := by
  rw [highbits_eq h hx]
  refine Nat.mod_lt _ ?_
  obtain ⟨rfl, -⟩ | ⟨rfl, -⟩ := h
  · decide
  · decide

/-- `x` is within `gamma` of the multiple `a`, the last coefficients going to zero. -/
def InClass (gamma x a : Nat) : Prop :=
  2 * gamma * a < x + gamma ∧ x ≤ 2 * gamma * a + gamma ∨ a = 0 ∧ Q ≤ x + gamma

theorem highbits_eq_iff (h : Rounds den gamma) {x a : Nat} (hx : x < Q) (ha : a < den / 2) :
    highbits x den = a ↔ InClass gamma x a := by
  rw [highbits_eq h hx]
  simp only [InClass, Q] at hx ⊢
  obtain ⟨rfl, rfl⟩ | ⟨rfl, rfl⟩ := h
  · omega
  · omega

/-- The rest of `x` beside its high part, as `decompose` computes it. -/
def lowbits (den gamma x : Nat) : Int :=
  let r0 : Int := x - 2 * gamma * highbits x den
  if 4190208 < r0 then r0 - Q else r0

theorem lowbits_cases (h : Rounds den gamma) {x : Nat} (hx : x < Q) :
    (x : Int) = 2 * gamma * highbits x den + lowbits den gamma x ∧
        -(gamma : Int) < lowbits den gamma x ∧ lowbits den gamma x ≤ gamma ∨
      highbits x den = 0 ∧ (x : Int) = Q + lowbits den gamma x ∧
        -(gamma : Int) ≤ lowbits den gamma x ∧ lowbits den gamma x < 0 := by
  have hclass := (highbits_eq_iff h hx (highbits_lt h hx)).mp rfl
  simp only [lowbits]
  generalize highbits x den = a at hclass ⊢
  simp only [InClass, Q] at hx hclass ⊢
  obtain ⟨rfl, rfl⟩ | ⟨rfl, rfl⟩ := h
  · split <;> omega
  · split <;> omega

theorem decomposeWith_eq (h : Rounds den gamma) {highbitsOf : Nat → Nat} {r : Nat} (hr : r < Q)
    (hof : highbitsOf (fieldFromMontgomery r) = highbits (fieldFromMontgomery r) den) :
    decomposeWith highbitsOf den r =
      (highbits (fieldFromMontgomery r) den, lowbits den gamma (fieldFromMontgomery r)) := by
  have hlt := (fieldFromMontgomery_spec hr).1
  have hscale (k : Nat) : (k : Int) * 2 * ((Q : Nat) - 1) / den = 2 * gamma * k := by
    simp only [Q]
    obtain ⟨rfl, rfl⟩ | ⟨rfl, rfl⟩ := h
    · omega
    · omega
  have hle : (fieldFromMontgomery r : Int) -
      2 * gamma * highbits (fieldFromMontgomery r) den ≤ fieldFromMontgomery r :=
    Int.sub_le_self _ (by positivity)
  simp only [decomposeWith, lowbits, hof, hscale, selectNeg, Int.shiftRight_eq_div_pow]
  generalize (fieldFromMontgomery r : Int) -
    2 * gamma * highbits (fieldFromMontgomery r) den = r0 at hle ⊢
  simp only [Q] at hlt ⊢
  have hcond : ((8380417 : Nat) / 2 - r0) / (2 ^ 31 : Nat) = -1 ↔ 4190208 < r0 := by omega
  simp only [hcond]

theorem decompose_eq (h : Rounds den gamma) {r : Nat} (hr : r < Q) :
    decompose r den =
      (highbits (fieldFromMontgomery r) den, lowbits den gamma (fieldFromMontgomery r)) := by
  have h' := h
  obtain ⟨rfl, rfl⟩ | ⟨rfl, rfl⟩ := h'
  · rw [decompose_32]
    exact decomposeWith_eq h hr (highbits_32 _).symm
  · rw [decompose_88]
    exact decomposeWith_eq h hr (highbits_88 _).symm

theorem highbits_shift (h : Rounds den gamma) {x y b : Nat} {e : Int} (hx : x < Q) (hy : y < Q)
    (hlow : (lowbits den gamma x).natAbs + b < gamma) (he : e.natAbs ≤ b)
    (hxy : (y : F) = x + e) : highbits y den = highbits x den := by
  have hlt := highbits_lt h hx
  have hcases := lowbits_cases h hx
  rw [highbits_eq_iff h hy hlt]
  generalize highbits x den = a at *
  generalize lowbits den gamma x = low at *
  have hgamma : gamma < Q := by
    simp only [Q]
    obtain ⟨-, rfl⟩ | ⟨-, rfl⟩ := h <;> decide
  have hshift := shift_cases hx hy (by omega) (by omega) hxy
  simp only [InClass, Q] at *
  obtain ⟨rfl, rfl⟩ | ⟨rfl, rfl⟩ := h
  · omega
  · omega

/-! ## Hints -/

theorem useHint_32 (r hint : Nat) : useHint r hint 32 = useHint32 r hint := by
  unfold useHint
  split <;> simp_all

theorem useHint_88 (r hint : Nat) : useHint r hint 88 = useHint88 r hint := by
  unfold useHint
  split <;> simp_all

theorem useHint_one (h : Rounds den gamma) {r : Nat} (hr : r < Q) :
    useHint r 1 den =
      if 0 < lowbits den gamma (fieldFromMontgomery r) then
        (highbits (fieldFromMontgomery r) den + 1) % (den / 2)
      else (highbits (fieldFromMontgomery r) den + (den / 2 - 1)) % (den / 2) := by
  have hlt := (fieldFromMontgomery_spec hr).1
  have hclass := highbits_lt h hlt
  have hrange := lowbits_cases h hlt
  have hdecompose := decompose_eq h hr
  generalize highbits (fieldFromMontgomery r) den = a at *
  generalize lowbits den gamma (fieldFromMontgomery r) = low at *
  obtain ⟨rfl, rfl⟩ | ⟨rfl, rfl⟩ := h
  · rw [decompose_32] at hdecompose
    rw [useHint_32, useHint32, hdecompose]
    have hsign : (low - 1) / (2 ^ 31 : Nat) = -1 ↔ ¬0 < low := by omega
    simp only [Int.shiftRight_eq_div_pow, one_ne_zero, if_false, hsign]
    by_cases hpos : 0 < low
    · simp only [hpos, not_true_eq_false, if_true, if_false]
      clear hrange hdecompose
      interval_cases a <;> rfl
    · simp only [hpos, not_false_eq_true, if_true, if_false]
      clear hrange hdecompose
      interval_cases a <;> rfl
  · rw [decompose_88] at hdecompose
    rw [useHint_88, useHint88, hdecompose]
    simp only [one_ne_zero, if_false, gt_iff_lt]
    clear hrange hdecompose
    split
    · split <;> omega
    · split <;> omega

theorem useHint_zero (h : Rounds den gamma) {r : Nat} (hr : r < Q) :
    useHint r 0 den = highbits (fieldFromMontgomery r) den := by
  have hdecompose := decompose_eq h hr
  generalize highbits (fieldFromMontgomery r) den = a at *
  generalize lowbits den gamma (fieldFromMontgomery r) = low at *
  obtain ⟨rfl, rfl⟩ | ⟨rfl, rfl⟩ := h
  · rw [decompose_32] at hdecompose
    simp only [useHint_32, useHint32, hdecompose, if_true]
  · rw [decompose_88] at hdecompose
    simp only [useHint_88, useHint88, hdecompose, if_true]

theorem makeHint_eq (h : Rounds den gamma) (ct0 w cs2 : Nat) :
    makeHint ct0 w cs2 den =
      if highbits (fieldFromMontgomery (fieldSub w cs2)) den ≠
        highbits (fieldFromMontgomery (fieldAdd (fieldSub w cs2) ct0)) den then 1 else 0 := by
  unfold makeHint
  obtain ⟨rfl, -⟩ | ⟨rfl, -⟩ := h
  · split
    · simp only [makeHint32, makeHintWith, highbits_32]
    · simp_all
    · simp_all
  · split
    · simp_all
    · simp only [makeHint88, makeHintWith, highbits_88]
    · simp_all

theorem next_class (h : Rounds den gamma) {x v a : Nat} {low e : Int} (hx : x < Q) (hv : v < Q)
    (he : e.natAbs < gamma) (ha : a < den / 2) (hpos : 0 < low) (hle : low ≤ gamma)
    (hlow : (x : Int) = 2 * gamma * a + low)
    (hshift : (x : Int) = v + e ∨ (x : Int) = v + e + Q ∨ (x : Int) = v + e - Q)
    (hne : ¬InClass gamma v a) : InClass gamma v ((a + 1) % (den / 2)) := by
  rw [InClass, not_or] at hne
  obtain ⟨hmiddle, hzero⟩ := hne
  rw [InClass]
  simp only [Q] at *
  obtain ⟨rfl, rfl⟩ | ⟨rfl, rfl⟩ := h
  · rcases hshift with h | h | h <;> omega
  · rcases hshift with h | h | h <;> omega

/-- The rest is negative or zero also in the class of zero above the multiples. -/
theorem previous_class (h : Rounds den gamma) {x v a : Nat} {low e : Int} (hx : x < Q) (hv : v < Q)
    (he : e.natAbs < gamma) (ha : a < den / 2) (hneg : low ≤ 0)
    (hcases : (x : Int) = 2 * gamma * a + low ∧ -(gamma : Int) < low ∨
      a = 0 ∧ (x : Int) = Q + low ∧ -(gamma : Int) ≤ low)
    (hshift : (x : Int) = v + e ∨ (x : Int) = v + e + Q ∨ (x : Int) = v + e - Q)
    (hne : ¬InClass gamma v a) : InClass gamma v ((a + (den / 2 - 1)) % (den / 2)) := by
  rw [InClass, not_or] at hne
  obtain ⟨hmiddle, hzero⟩ := hne
  rw [InClass]
  simp only [Q] at *
  obtain ⟨rfl, rfl⟩ | ⟨rfl, rfl⟩ := h
  · rcases hcases with ⟨hlow, hlo⟩ | ⟨rfl, hlow, hlo⟩
    · rcases hshift with h | h | h <;> omega
    · rcases hshift with h | h | h <;> omega
  · rcases hcases with ⟨hlow, hlo⟩ | ⟨rfl, hlow, hlo⟩
    · rcases hshift with h | h | h <;> omega
    · rcases hshift with h | h | h <;> omega

theorem useHint_add (h : Rounds den gamma) {r v : Nat} {e : Int} (hr : r < Q) (hv : v < Q)
    (he : e.natAbs < gamma) (hrv : value r = v + e) :
    useHint r (if highbits v den ≠ highbits (fieldFromMontgomery r) den then 1 else 0) den =
      highbits v den := by
  obtain ⟨hx, hcast⟩ := fieldFromMontgomery_spec hr
  have hcases := lowbits_cases h hx
  have hlt := highbits_lt h hx
  have hgamma : gamma < Q := by
    simp only [Q]
    obtain ⟨-, rfl⟩ | ⟨-, rfl⟩ := h <;> decide
  have hshift := shift_cases hv hx (e := e) (by omega) (by omega) (hcast.trans hrv)
  have hclass : 0 < den / 2 := by
    obtain ⟨rfl, -⟩ | ⟨rfl, -⟩ := h <;> decide
  split
  · next hne =>
    rw [ne_eq, highbits_eq_iff h hv hlt] at hne
    rw [useHint_one h hr]
    symm
    split
    · next hpos =>
      rw [highbits_eq_iff h hv (Nat.mod_lt _ hclass)]
      obtain ⟨hlow, -, hle⟩ | ⟨-, -, -, hneg⟩ := hcases
      · exact next_class h hx hv he hlt hpos hle hlow hshift hne
      · omega
    · next hneg =>
      rw [highbits_eq_iff h hv (Nat.mod_lt _ hclass)]
      exact previous_class h hx hv he hlt (not_lt.mp hneg)
        (hcases.imp (fun h => ⟨h.1, h.2.1⟩) fun h => ⟨h.1, h.2.1, h.2.2.1⟩) hshift hne
  · next heq =>
    rw [useHint_zero h hr]
    exact (not_not.mp heq).symm

/-- The verifier's use of the signer's hint: `r` is `w - cs2 + ct0` computed in another way. -/
theorem useHint_makeHint (h : Rounds den gamma) {ct0 w cs2 r : Nat} (hct0 : ct0 < Q) (hw : w < Q)
    (hcs2 : cs2 < Q) (hr : r < Q) (hbound : fieldInfinityNorm ct0 < gamma)
    (hvalue : value r = value w - value cs2 + value ct0) :
    useHint r (makeHint ct0 w cs2 den) den =
      highbits (fieldFromMontgomery (fieldSub w cs2)) den := by
  obtain ⟨hsub, hsubValue⟩ := fieldSub_spec hw hcs2
  obtain ⟨hadd, haddValue⟩ := fieldAdd_spec hsub hct0
  obtain ⟨hv, hvCast⟩ := fieldFromMontgomery_spec hsub
  obtain ⟨hcentered, hsmall⟩ := centered_of_norm hct0 hbound
  have hsame : fieldAdd (fieldSub w cs2) ct0 = r :=
    value_inj hadd hr (by rw [haddValue, hsubValue, hvalue])
  have hadded : value r = (fieldFromMontgomery (fieldSub w cs2) : F) + fieldCenteredMod ct0 := by
    rw [hvCast, hsubValue, hcentered, hvalue]
  rw [makeHint_eq h, hsame]
  exact useHint_add h hr hv hsmall hadded

end Classes

end Stdx.MlDsa
