import Mathlib.Tactic

/-!
# Division by a truncated reciprocal

A quotient estimated from the leading part of the dividend and the integer
reciprocal of the divisor is at most two too small.
-/

namespace Stdx.Foundation

section Estimate

variable {low high m x : Nat}

/-- `x` without its `low` part, times `low * high / m`, without its `high` part. -/
def quotientEstimate (low high m x : Nat) : Nat :=
  x / low * (low * high / m) / high

theorem quotientEstimate_mul_le (hhigh : 0 < high) :
    quotientEstimate low high m x * m ≤ x := by
  have hq3 := Nat.div_mul_le_self (x / low * (low * high / m)) high
  have hmu := Nat.div_mul_le_self (low * high) m
  have hq1 := Nat.div_mul_le_self x low
  refine Nat.le_of_mul_le_mul_left ?_ hhigh
  calc high * (quotientEstimate low high m x * m)
      = quotientEstimate low high m x * high * m := by ring
    _ ≤ x / low * (low * high / m) * m := Nat.mul_le_mul_right m hq3
    _ = x / low * (low * high / m * m) := by ring
    _ ≤ x / low * (low * high) := Nat.mul_le_mul_left _ hmu
    _ = high * (x / low * low) := by ring
    _ ≤ high * x := Nat.mul_le_mul_left _ hq1

theorem lt_quotientEstimate_mul_add (hlow : 0 < low) (hhigh : 0 < high)
    (hlowm : low ≤ m) (hx : x < low * high) :
    x < quotientEstimate low high m x * m + 3 * m := by
  have hm : 0 < m := lt_of_lt_of_le hlow hlowm
  have hq1 : x / low < high := Nat.div_lt_of_lt_mul hx
  have hx1 : x < (x / low + 1) * low := Nat.lt_mul_of_div_lt (Nat.lt_succ_self _) hlow
  have hmu : low * high < (low * high / m + 1) * m :=
    Nat.lt_mul_of_div_lt (Nat.lt_succ_self _) hm
  have hq3 : x / low * (low * high / m) <
      (quotientEstimate low high m x + 1) * high :=
    Nat.lt_mul_of_div_lt (Nat.lt_succ_self _) hhigh
  refine Nat.lt_of_mul_lt_mul_left (a := high) ?_
  calc high * x < high * ((x / low + 1) * low) :=
        Nat.mul_lt_mul_of_pos_left hx1 hhigh
    _ = x / low * (low * high) + low * high := by ring
    _ ≤ x / low * ((low * high / m + 1) * m) + m * high := by
        gcongr
    _ = x / low * (low * high / m) * m + x / low * m + m * high := by ring
    _ ≤ (quotientEstimate low high m x + 1) * high * m + high * m + m * high := by
        gcongr
    _ = high * (quotientEstimate low high m x * m + 3 * m) := by ring

end Estimate

def subtractTwice (m r : Nat) : Nat :=
  let r := if m ≤ r then r - m else r
  if m ≤ r then r - m else r

theorem subtractTwice_eq_mod {m r : Nat} (hr : r < 3 * m) :
    subtractTwice m r = r % m := by
  unfold subtractTwice
  simp only
  rcases Nat.lt_or_ge r m with h1 | h1
  · simp [Nat.not_le.mpr h1, Nat.mod_eq_of_lt h1]
  · rw [if_pos h1]
    rcases Nat.lt_or_ge (r - m) m with h2 | h2
    · rw [if_neg (by omega), Nat.mod_eq_sub_mod h1, Nat.mod_eq_of_lt h2]
    · rw [if_pos h2, Nat.mod_eq_sub_mod h1, Nat.mod_eq_sub_mod h2,
        Nat.mod_eq_of_lt (by omega)]

theorem subtractTwice_add_mul {m q r : Nat} (hr : r < m) :
    subtractTwice m (q * m + r) = (q - 2) * m + r := by
  unfold subtractTwice
  simp only
  match q with
  | 0 => simp [Nat.not_le.mpr hr]
  | 1 => simp [Nat.not_le.mpr hr]
  | q + 2 =>
    have h1 : m ≤ (q + 2) * m + r := by
      rw [Nat.add_mul]
      omega
    have h2 : m ≤ (q + 2) * m + r - m := by
      rw [Nat.add_mul]
      omega
    rw [if_pos h1, if_pos h2, Nat.add_sub_cancel, Nat.add_mul]
    omega

end Stdx.Foundation
