import Stdx.Foundation.Octets

/-!
# Little-endian octet strings

`leValue` reads any string of octets, `leOctets` writes a number into a fixed number
of them.
-/

namespace Stdx.Foundation

def leValue : Bytes → Nat
  | [] => 0
  | octet :: octets => octet.toNat + 256 * leValue octets

@[grind =]
def leOctets : Nat → Nat → Bytes
  | 0, _ => []
  | length + 1, n => UInt8.ofNat n :: leOctets length (n / 256)

@[simp] theorem leValue_nil : leValue [] = 0 := rfl

theorem leValue_cons (octet : UInt8) (octets : Bytes) :
    leValue (octet :: octets) = octet.toNat + 256 * leValue octets := rfl

theorem leValue_append (front back : Bytes) :
    leValue (front ++ back) = leValue front + 256 ^ front.length * leValue back := by
  induction front with
  | nil => simp
  | cons octet front ih =>
    rw [List.cons_append, leValue_cons, ih, leValue_cons, List.length_cons, pow_succ']
    ring

theorem leValue_lt (octets : Bytes) : leValue octets < 256 ^ octets.length := by
  induction octets with
  | nil => simp
  | cons octet octets ih =>
    have hoctet := octet.toNat_lt
    rw [leValue_cons, List.length_cons, pow_succ']
    omega

@[simp] theorem leValue_replicate_zero (count : Nat) :
    leValue (List.replicate count 0) = 0 := by
  induction count with
  | zero => rfl
  | succ count ih => simp [List.replicate_succ, leValue_cons, ih]

theorem leValue_take_drop (octets : Bytes) {i : Nat} (hi : i ≤ octets.length) :
    leValue octets = leValue (octets.take i) + 256 ^ i * leValue (octets.drop i) := by
  conv_lhs => rw [← List.take_append_drop i octets]
  rw [leValue_append, List.length_take, Nat.min_eq_left hi]

@[simp] theorem leOctets_length (length n : Nat) : (leOctets length n).length = length := by
  induction length generalizing n with
  | zero => rfl
  | succ length ih => simp [leOctets, ih]

theorem leValue_leOctets (length n : Nat) :
    leValue (leOctets length n) = n % 256 ^ length := by
  induction length generalizing n with
  | zero => simp [leOctets, Nat.mod_one]
  | succ length ih =>
    have hoctet : n % 2 ^ 8 = n % 256 := rfl
    rw [leOctets, leValue_cons, ih, UInt8.toNat_ofNat', hoctet, pow_succ', Nat.mod_mul]

theorem leValue_inj {a b : Bytes} (hlength : a.length = b.length)
    (h : leValue a = leValue b) : a = b := by
  induction a generalizing b with
  | nil => exact (List.length_eq_zero_iff.mp hlength.symm).symm
  | cons x xs ih =>
    cases b with
    | nil => simp at hlength
    | cons y ys =>
      have hx := x.toNat_lt
      have hy := y.toNat_lt
      rw [leValue_cons, leValue_cons] at h
      have hhead : x = y := UInt8.toNat_inj.mp (by omega)
      rw [hhead, ih (by simpa using hlength) (by rw [hhead] at h; omega)]

theorem leOctets_leValue (octets : Bytes) :
    leOctets octets.length (leValue octets) = octets := by
  refine leValue_inj (leOctets_length _ _) ?_
  rw [leValue_leOctets, Nat.mod_eq_of_lt (leValue_lt octets)]

theorem leOctets_inj {length m n : Nat} (hm : m < 256 ^ length) (hn : n < 256 ^ length)
    (h : leOctets length m = leOctets length n) : m = n := by
  have hvalue := congrArg leValue h
  rwa [leValue_leOctets, leValue_leOctets, Nat.mod_eq_of_lt hm, Nat.mod_eq_of_lt hn]
    at hvalue

end Stdx.Foundation
