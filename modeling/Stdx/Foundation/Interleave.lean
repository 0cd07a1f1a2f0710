import Mathlib

/-!
# Bit interleaving

A word of `2 * n` bits as the word of its even bits and the word of its odd ones.  The
bitwise operations act on both alike, and a rotation of the word is a rotation of each,
with the two exchanged when the amount is odd.  A word is taken apart by exchanging
groups of bits.
-/

namespace Stdx.Foundation

variable {w n : Nat}

def half (n : Nat) (odd : Bool) (x : BitVec w) : BitVec n :=
  BitVec.ofFnLE fun i : Fin n => x.getLsbD (2 * i.val + odd.toNat)

theorem getLsbD_half (odd : Bool) (x : BitVec w) {i : Nat} (h : i < n) :
    (half n odd x).getLsbD i = x.getLsbD (2 * i + odd.toNat) := by
  rw [BitVec.getLsbD_eq_getElem h, half, BitVec.getElem_ofFnLE]

theorem half_xor (odd : Bool) (x y : BitVec w) :
    half n odd (x ^^^ y) = half n odd x ^^^ half n odd y := by
  apply BitVec.eq_of_getLsbD_eq
  intro i hi
  simp [getLsbD_half _ _ hi]

theorem half_and (odd : Bool) (x y : BitVec w) :
    half n odd (x &&& y) = half n odd x &&& half n odd y := by
  apply BitVec.eq_of_getLsbD_eq
  intro i hi
  simp [getLsbD_half _ _ hi]

theorem half_not (hw : w = 2 * n) (odd : Bool) (x : BitVec w) :
    half n odd (~~~x) = ~~~half n odd x := by
  apply BitVec.eq_of_getLsbD_eq
  intro i hi
  have hodd := Bool.toNat_le odd
  have hlt : 2 * i + odd.toNat < w := by omega
  rw [getLsbD_half _ _ hi, BitVec.getLsbD_not, BitVec.getLsbD_not, getLsbD_half _ _ hi,
    decide_eq_true hlt, decide_eq_true hi]

@[simp] theorem half_zero (odd : Bool) : half n odd (0 : BitVec w) = 0 := by
  apply BitVec.eq_of_getLsbD_eq
  intro i hi
  simp [getLsbD_half _ _ hi]

theorem getLsbD_one_shiftLeft {v q i : Nat} (hi : i < v) :
    ((1 : BitVec v) <<< q).getLsbD i = decide (i = q) := by
  simp only [BitVec.getLsbD_shiftLeft, hi, decide_true, Bool.true_and, BitVec.ofNat_eq_ofNat,
    BitVec.getLsbD_one]
  rw [Bool.eq_iff_iff]
  simp
  omega

theorem half_one_shiftLeft (hw : w = 2 * n) (odd : Bool) (p : Nat) :
    half n odd ((1 : BitVec w) <<< p) =
      if p % 2 = odd.toNat then (1 : BitVec n) <<< (p / 2) else 0 := by
  have hodd := odd.toNat_le
  apply BitVec.eq_of_getLsbD_eq
  intro i hi
  rw [getLsbD_half odd _ hi, getLsbD_one_shiftLeft (by omega)]
  split
  · rw [getLsbD_one_shiftLeft hi, decide_eq_decide]
    omega
  · simp
    omega

theorem halves_ext (hw : w = 2 * n) {x y : BitVec w}
    (h : ∀ odd, half n odd x = half n odd y) : x = y := by
  apply BitVec.eq_of_getLsbD_eq
  intro i hi
  have hhalf := congrArg (fun z => z.getLsbD (i / 2)) (h (i % 2 == 1))
  have hlt : i / 2 < n := by omega
  have hindex : 2 * (i / 2) + (i % 2 == 1).toNat = i := by
    rcases Nat.mod_two_eq_zero_or_one i with hzero | hone
    · simp [hzero]
      omega
    · simp [hone]
      omega
  simpa only [getLsbD_half _ _ hlt, hindex] using hhalf

/-! ## Rotations -/

theorem rotateRight_getLsbD (x : BitVec w) (r : Nat) {i : Nat} (hi : i < w) :
    (x.rotateRight r).getLsbD i = x.getLsbD ((i + r) % w) := by
  have hr := Nat.mod_lt r (by omega : 0 < w)
  have hmod : (i + r) % w = (i + r % w) % w := (Nat.add_mod_mod i r w).symm
  rw [BitVec.getLsbD_rotateRight, hmod]
  by_cases hlow : i < w - r % w
  · rw [decide_eq_true hlow, cond_true, @Nat.mod_eq_of_lt (i + r % w) w (by omega),
      Nat.add_comm]
  · have hindex : i - (w - r % w) = i + r % w - w := by omega
    rw [decide_eq_false hlow, cond_false, decide_eq_true hi, Bool.true_and, hindex,
      @Nat.mod_eq_sub_mod (i + r % w) w (by omega),
      @Nat.mod_eq_of_lt (i + r % w - w) w (by omega)]

theorem rotateRight_xor (x y : BitVec w) (r : Nat) :
    (x ^^^ y).rotateRight r = x.rotateRight r ^^^ y.rotateRight r := by
  apply BitVec.eq_of_getLsbD_eq
  intro i hi
  simp [rotateRight_getLsbD _ _ hi]

theorem rotateRight_not (x : BitVec w) (r : Nat) :
    (~~~x).rotateRight r = ~~~x.rotateRight r := by
  apply BitVec.eq_of_getLsbD_eq
  intro i hi
  have hlt := Nat.mod_lt (i + r) (by omega : 0 < w)
  rw [rotateRight_getLsbD _ _ hi, BitVec.getLsbD_not, BitVec.getLsbD_not,
    rotateRight_getLsbD _ _ hi, decide_eq_true hlt, decide_eq_true hi]

theorem rotateRight_rotateRight (x : BitVec w) (r s : Nat) :
    (x.rotateRight r).rotateRight s = x.rotateRight (r + s) := by
  apply BitVec.eq_of_getLsbD_eq
  intro i hi
  have hlt := Nat.mod_lt (i + s) (by omega : 0 < w)
  rw [rotateRight_getLsbD _ _ hi, rotateRight_getLsbD _ _ hlt, rotateRight_getLsbD _ _ hi,
    Nat.mod_add_mod]
  congr 2
  omega

theorem rotateRight_factor (x : BitVec w) (r d : Nat) :
    x ^^^ (x ^^^ x.rotateRight d).rotateRight r =
      x ^^^ x.rotateRight r ^^^ x.rotateRight (d + r) := by
  rw [rotateRight_xor, rotateRight_rotateRight, BitVec.xor_assoc]

theorem double_mod (n a : Nat) {b : Nat} (hb : b < 2) :
    (b + 2 * a) % (2 * n) = 2 * (a % n) + b := by
  have hlow : (b + 2 * a) % 2 = b := by omega
  have hhigh : (b + 2 * a) / 2 = a := by omega
  rw [Nat.mod_mul, hlow, hhigh, Nat.add_comm]

theorem half_rotateRight_even (hw : w = 2 * n) (odd : Bool) (x : BitVec w) (k : Nat) :
    half n odd (x.rotateRight (2 * k)) = (half n odd x).rotateRight k := by
  apply BitVec.eq_of_getLsbD_eq
  intro i hi
  have hodd := Bool.toNat_le odd
  have hlt := Nat.mod_lt (i + k) (by omega : 0 < n)
  have hsum : 2 * i + odd.toNat + 2 * k = odd.toNat + 2 * (i + k) := by ring
  have hmod : (2 * i + odd.toNat + 2 * k) % w = 2 * ((i + k) % n) + odd.toNat := by
    rw [hsum, hw, double_mod n _ (by omega)]
  rw [getLsbD_half _ _ hi, rotateRight_getLsbD _ _ (by omega), hmod,
    rotateRight_getLsbD _ _ hi, getLsbD_half _ _ hlt]

theorem half_rotateRight_odd (hw : w = 2 * n) (odd : Bool) (x : BitVec w) (k : Nat) :
    half n odd (x.rotateRight (2 * k + 1)) = (half n (!odd) x).rotateRight (k + odd.toNat) := by
  apply BitVec.eq_of_getLsbD_eq
  intro i hi
  have hlt := Nat.mod_lt (i + (k + odd.toNat)) (by omega : 0 < n)
  have hodd := Bool.toNat_le odd
  have hnot : 2 * odd.toNat + (!odd).toNat = odd.toNat + 1 := by cases odd <;> rfl
  have hflip := Bool.toNat_le (!odd)
  have hsum : 2 * i + odd.toNat + (2 * k + 1) =
      (!odd).toNat + 2 * (i + (k + odd.toNat)) := by omega
  have hmod : (2 * i + odd.toNat + (2 * k + 1)) % w =
      2 * ((i + (k + odd.toNat)) % n) + (!odd).toNat := by
    rw [hsum, hw, double_mod n _ (by omega)]
  rw [getLsbD_half _ _ hi, rotateRight_getLsbD _ _ (by omega), hmod,
    rotateRight_getLsbD _ _ hi, getLsbD_half _ _ hlt]

/-! ## Exchanging bits -/

def exchange (mask : BitVec w) (k : Nat) (x : BitVec w) : BitVec w :=
  let t := (x ^^^ (x >>> k)) &&& mask
  x ^^^ (t ^^^ (t <<< k))

def exchangeIndex (mask : BitVec w) (k i : Nat) : Nat :=
  if mask.getLsbD i then i + k
  else if k ≤ i ∧ mask.getLsbD (i - k) then i - k
  else i

/-- The two groups of bits are apart. -/
def Apart (mask : BitVec w) (k : Nat) : Prop :=
  ∀ i, i < w → mask.getLsbD i → mask.getLsbD (i + k) = false

instance (mask : BitVec w) (k : Nat) : Decidable (Apart mask k) :=
  inferInstanceAs (Decidable (∀ i, i < w → mask.getLsbD i → mask.getLsbD (i + k) = false))

theorem getLsbD_exchange {mask : BitVec w} {k : Nat} (h : Apart mask k) (x : BitVec w) {i : Nat}
    (hi : i < w) : (exchange mask k x).getLsbD i = x.getLsbD (exchangeIndex mask k i) := by
  simp only [exchange, exchangeIndex, BitVec.getLsbD_xor, BitVec.getLsbD_and,
    BitVec.getLsbD_ushiftRight, BitVec.getLsbD_shiftLeft, hi, decide_true, Bool.true_and]
  by_cases hk : k ≤ i
  · have hback : k + (i - k) = i := by omega
    have hapart := h (i - k) (by omega)
    rw [Nat.sub_add_cancel hk] at hapart
    rw [hback, decide_eq_false (Nat.not_lt.mpr hk), Nat.add_comm i k]
    by_cases hlow : mask.getLsbD (i - k) = true
    · rw [hapart hlow, hlow, if_neg Bool.false_ne_true, if_pos ⟨hk, rfl⟩]
      cases x.getLsbD i <;> cases x.getLsbD (i - k) <;> simp
    · rw [Bool.not_eq_true] at hlow
      rw [hlow, if_neg (fun hand : k ≤ i ∧ false = true => Bool.false_ne_true hand.2)]
      cases mask.getLsbD i with
      | true =>
        rw [if_pos rfl]
        cases x.getLsbD i <;> cases x.getLsbD (k + i) <;> simp
      | false => cases hx : x.getLsbD i <;> simp [hx]
  · rw [decide_eq_true (Nat.lt_of_not_le hk), Nat.add_comm i k,
      if_neg (fun hand : k ≤ i ∧ _ => hk hand.1)]
    cases mask.getLsbD i with
    | true =>
      rw [if_pos rfl]
      cases x.getLsbD i <;> cases x.getLsbD (k + i) <;> simp
    | false => cases hx : x.getLsbD i <;> simp [hx]

end Stdx.Foundation
