import Stdx.Foundation.LittleEndian

/-!
# Exclusive or of octet strings

`xorOctets` stops at the end of the shorter string.  On little-endian words it is the
exclusive or of the numbers.
-/

namespace Stdx.Foundation

abbrev xorOctets (a b : Bytes) : Bytes := List.zipWith (· ^^^ ·) a b

theorem xorOctets_length {a b : Bytes} (h : b.length ≤ a.length) :
    (xorOctets a b).length = b.length := by
  simp [h]

theorem xorOctets_cancel {mask data : Bytes} (h : data.length ≤ mask.length) :
    xorOctets mask (xorOctets mask data) = data := by
  induction data generalizing mask with
  | nil => simp
  | cons y ys ih =>
    cases mask with
    | nil => simp at h
    | cons x xs =>
      have htail : ys.length ≤ xs.length := by simpa using h
      have hrest := ih htail
      simp only [xorOctets, List.zipWith_cons_cons] at hrest ⊢
      rw [hrest, ← UInt8.xor_assoc, UInt8.xor_self, UInt8.zero_xor]

theorem xorOctets_append {a b c d : Bytes} (h : a.length = c.length) :
    xorOctets (a ++ b) (c ++ d) = xorOctets a c ++ xorOctets b d :=
  List.zipWith_append h

@[simp] theorem xorOctets_zeros (a : Bytes) :
    xorOctets a (List.replicate a.length 0) = a := by
  induction a with
  | nil => rfl
  | cons x xs ih =>
    simp only [xorOctets, List.length_cons, List.replicate_succ, List.zipWith_cons_cons] at ih ⊢
    rw [ih, UInt8.xor_zero]

theorem xorOctets_padded {mask data : Bytes} (h : data.length ≤ mask.length) :
    xorOctets mask (data ++ List.replicate (mask.length - data.length) 0) =
      xorOctets mask data ++ mask.drop data.length := by
  have hlength : (mask.take data.length).length = data.length := by simp [h]
  have hrest := xorOctets_zeros (mask.drop data.length)
  rw [List.length_drop] at hrest
  have hfront : xorOctets mask data = xorOctets (mask.take data.length) data := by
    have hsplit := xorOctets_append (b := mask.drop data.length) (d := []) hlength
    rw [List.take_append_drop, List.append_nil] at hsplit
    simpa using hsplit
  conv_lhs => rw [← List.take_append_drop data.length mask]
  rw [List.length_append, hlength, List.length_drop, Nat.add_sub_cancel_left,
    xorOctets_append hlength, hrest, hfront]

theorem xorOctets_left {a b data : Bytes} (h : data.length ≤ a.length) :
    xorOctets (a ++ b) data = xorOctets a data := by
  induction data generalizing a with
  | nil => simp
  | cons y ys ih =>
    cases a with
    | nil => simp at h
    | cons x xs =>
      have htail : ys.length ≤ xs.length := by simpa using h
      simp only [xorOctets, List.cons_append, List.zipWith_cons_cons] at ih ⊢
      rw [ih htail]

theorem xorOctets_split {a b data : Bytes} (h : a.length ≤ data.length) :
    xorOctets (a ++ b) data =
      xorOctets a (data.take a.length) ++ xorOctets b (data.drop a.length) := by
  rw [← xorOctets_append (by simp [h]), List.take_append_drop]

theorem leOctets_xor (length m n : Nat) :
    leOctets length (m ^^^ n) = xorOctets (leOctets length m) (leOctets length n) := by
  induction length generalizing m n with
  | zero => rfl
  | succ length ih =>
    have hhead : UInt8.ofNat (m ^^^ n) = UInt8.ofNat m ^^^ UInt8.ofNat n := by
      apply UInt8.toNat_inj.mp
      rw [UInt8.toNat_xor, UInt8.toNat_ofNat', UInt8.toNat_ofNat', UInt8.toNat_ofNat',
        Nat.xor_mod_two_pow]
    have htail : (m ^^^ n) / 256 = m / 256 ^^^ n / 256 :=
      Nat.xor_div_two_pow (n := 8)
    simp only [leOctets, xorOctets, List.zipWith_cons_cons]
    rw [hhead, htail, ih]

end Stdx.Foundation
