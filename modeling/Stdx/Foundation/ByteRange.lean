import Stdx.Foundation.Octets

/-!
# Ranges of octets without branches

`v - lo` and `hi - v` both wrap around to an octet with its top bit set where `v` is
outside of the range, which a shift of the sign spreads over the whole octet.
-/

namespace Stdx.Foundation

theorem spreadSign (x : UInt8) :
    (x.toInt8 >>> 7).toUInt8 = if x < 128 then 0 else 0xff := by
  revert x
  exact forall_octet (by decide +kernel)

theorem or_lt_128_iff (a b : UInt8) : a ||| b < 128 ↔ a < 128 ∧ b < 128 := by
  simp only [UInt8.lt_iff_toNat_lt, UInt8.toNat_or]
  constructor
  · intro h
    have ha : a.toNat ≤ a.toNat ||| b.toNat := Nat.left_le_or
    have hb : b.toNat ≤ a.toNat ||| b.toNat := Nat.right_le_or
    exact ⟨ha.trans_lt h, hb.trans_lt h⟩
  · rintro ⟨ha, hb⟩
    exact Nat.or_lt_two_pow (n := 7) ha hb

theorem rangeMask_eq {lo hi : UInt8} (h : lo ≤ hi) (hhi : hi < 128) (v : UInt8) :
    (((v - lo).toInt8 ||| (hi - v).toInt8) >>> 7).toUInt8 =
      if lo ≤ v ∧ v ≤ hi then 0 else 0xff := by
  have hor : (v - lo).toInt8 ||| (hi - v).toInt8 = ((v - lo) ||| (hi - v)).toInt8 := rfl
  rw [hor, spreadSign]
  congr 1
  rw [or_lt_128_iff, eq_iff_iff]
  simp only [UInt8.lt_iff_toNat_lt, UInt8.le_iff_toNat_le, UInt8.toNat_sub] at *
  have hv := v.toNat_lt
  have h128 : (128 : UInt8).toNat = 128 := rfl
  omega

end Stdx.Foundation
