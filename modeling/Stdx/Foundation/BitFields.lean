import Mathlib.Tactic

/-!
# Constant bits inside a number

`insertBits` opens a gap of `width` bits above the low `position` bits of a number and
fills it with a constant.  It keeps the order, and so does appending bits below.
-/

namespace Stdx.Foundation

def insertBits (position width constant n : Nat) : Nat :=
  (n / 2 ^ position * 2 ^ width + constant) * 2 ^ position + n % 2 ^ position

theorem insertBits_strictMono {position width constant : Nat} :
    StrictMono (insertBits position width constant) := by
  intro m n hlt
  have hpos : 0 < 2 ^ position := Nat.two_pow_pos position
  have hm := Nat.mod_lt m hpos
  rcases Nat.lt_or_ge (m / 2 ^ position) (n / 2 ^ position) with hhigh | hhigh
  · have hstep : m / 2 ^ position * 2 ^ width + constant + 1 ≤
        n / 2 ^ position * 2 ^ width + constant := by
      have hmul := Nat.mul_le_mul_right (2 ^ width) hhigh
      have hwidth : 0 < 2 ^ width := Nat.two_pow_pos width
      rw [Nat.succ_mul] at hmul
      omega
    calc insertBits position width constant m
        < (m / 2 ^ position * 2 ^ width + constant) * 2 ^ position + 2 ^ position := by
          rw [insertBits]
          omega
      _ = (m / 2 ^ position * 2 ^ width + constant + 1) * 2 ^ position := by ring
      _ ≤ (n / 2 ^ position * 2 ^ width + constant) * 2 ^ position :=
          Nat.mul_le_mul_right _ hstep
      _ ≤ insertBits position width constant n := Nat.le_add_right _ _
  · have hsame : m / 2 ^ position = n / 2 ^ position :=
      le_antisymm (Nat.div_le_div_right hlt.le) hhigh
    have hmsplit := Nat.div_add_mod m (2 ^ position)
    have hnsplit := Nat.div_add_mod n (2 ^ position)
    rw [hsame] at hmsplit
    rw [insertBits, insertBits, hsame]
    omega

theorem append_bits_lt {m n low width : Nat} (high : Nat) (hlt : m < n) (hlow : low < 2 ^ width) :
    m * 2 ^ width + low < n * 2 ^ width + high := by
  have hmul := Nat.mul_le_mul_right (2 ^ width) hlt
  rw [Nat.succ_mul] at hmul
  omega

end Stdx.Foundation
