import Stdx.Foundation.Octets

/-!
# Decimal digits as octets

`fixedDigits width n` is the number `n` in exactly `width` digits, and `zeroPadded width n`
what a format string with that minimum width prints.  They agree on the numbers that fit.
-/

namespace Stdx.Foundation

def isAsciiDigit (octet : UInt8) : Bool := 48 ≤ octet && octet ≤ 57

def digit (n : Nat) : UInt8 := UInt8.ofNat (48 + n % 10)

def digitsValue (digits : Bytes) : Nat :=
  digits.foldl (fun value octet => value * 10 + (octet.toNat - 48)) 0

@[grind =]
def fixedDigits : Nat → Nat → Bytes
  | 0, _ => []
  | width + 1, n => fixedDigits width (n / 10) ++ [digit n]

def decimalDigits (n : Nat) : Bytes :=
  (Nat.toDigits 10 n).map fun c => UInt8.ofNat c.toNat

def zeroPadded (width n : Nat) : Bytes :=
  List.replicate (width - (decimalDigits n).length) 48 ++ decimalDigits n

@[simp] theorem toNat_digit (n : Nat) : (digit n).toNat = 48 + n % 10 := by
  rw [digit, UInt8.toNat_ofNat']
  omega

@[simp] theorem isAsciiDigit_digit (n : Nat) : isAsciiDigit (digit n) = true := by
  simp only [isAsciiDigit, Bool.and_eq_true, decide_eq_true_eq, UInt8.le_iff_toNat_le, toNat_digit]
  constructor
  · show 48 ≤ 48 + n % 10
    omega
  · show 48 + n % 10 ≤ 57
    omega

@[simp] theorem length_fixedDigits (width n : Nat) : (fixedDigits width n).length = width := by
  induction width generalizing n with
  | zero => rfl
  | succ width ih => simp [fixedDigits, ih]

theorem isAsciiDigit_of_mem {width n : Nat} {octet : UInt8} (h : octet ∈ fixedDigits width n) :
    isAsciiDigit octet = true := by
  induction width generalizing n with
  | zero => simp [fixedDigits] at h
  | succ width ih =>
    rw [fixedDigits, List.mem_append, List.mem_singleton] at h
    rcases h with h | rfl
    · exact ih h
    · exact isAsciiDigit_digit n

theorem digitsValue_concat (digits : Bytes) (octet : UInt8) :
    digitsValue (digits ++ [octet]) = digitsValue digits * 10 + (octet.toNat - 48) := by
  simp [digitsValue]

theorem digitsValue_fixedDigits (width n : Nat) :
    digitsValue (fixedDigits width n) = n % 10 ^ width := by
  induction width generalizing n with
  | zero =>
    rw [Nat.pow_zero, Nat.mod_one]
    rfl
  | succ width ih =>
    have hmod : n % (10 * 10 ^ width) = n % 10 + 10 * (n / 10 % 10 ^ width) := Nat.mod_mul
    rw [fixedDigits, digitsValue_concat, ih, toNat_digit, Nat.pow_succ', hmod]
    omega

theorem decimalDigits_digit {n : Nat} (h : n < 10) : decimalDigits n = [digit n] := by
  rw [decimalDigits, Nat.toDigits_of_lt_base h]
  interval_cases n <;> rfl

theorem decimalDigits_step {n : Nat} (h : 10 ≤ n) :
    decimalDigits n = decimalDigits (n / 10) ++ [digit n] := by
  have hlast : digit n = digit (n % 10) := by simp [digit]
  have hsingle := decimalDigits_digit (Nat.mod_lt n (by norm_num : 0 < 10))
  rw [decimalDigits, Nat.toDigits_of_base_le (by norm_num) h, List.map_append, hlast, ← hsingle]
  rw [decimalDigits, decimalDigits, Nat.toDigits_of_lt_base (Nat.mod_lt n (by norm_num))]

theorem length_decimalDigits_pos (n : Nat) : 0 < (decimalDigits n).length := by
  rw [decimalDigits, List.length_map]
  exact List.length_pos_of_ne_nil Nat.toDigits_ne_nil

/-- A number takes at most `width` digits exactly when it is below the power of ten. -/
theorem length_decimalDigits_le {width n : Nat} :
    (decimalDigits n).length ≤ width + 1 ↔ n < 10 ^ (width + 1) := by
  induction width generalizing n with
  | zero =>
    rcases Nat.lt_or_ge n 10 with h | h
    · simp [decimalDigits_digit h, h]
    · have := length_decimalDigits_pos (n / 10)
      simp only [decimalDigits_step h, List.length_append, List.length_singleton]
      omega
  | succ width ih =>
    have hpow : 10 ^ (width + 1 + 1) = 10 ^ (width + 1) * 10 := Nat.pow_succ ..
    have hpos : 0 < 10 ^ width := Nat.pos_of_ne_zero (by positivity)
    rcases Nat.lt_or_ge n 10 with h | h
    · simp only [decimalDigits_digit h, List.length_singleton]
      rw [hpow, Nat.pow_succ]
      omega
    · have hiff := ih (n := n / 10)
      simp only [decimalDigits_step h, List.length_append, List.length_singleton]
      omega

theorem zeroPadded_step (width n : Nat) :
    zeroPadded (width + 2) n = zeroPadded (width + 1) (n / 10) ++ [digit n] := by
  rcases Nat.lt_or_ge n 10 with h | h
  · have hzero : n / 10 = 0 := by omega
    rw [zeroPadded, zeroPadded, hzero, decimalDigits_digit h, decimalDigits_digit (by norm_num)]
    have hdigit : digit 0 = 48 := rfl
    rw [hdigit, ← List.replicate_succ']
    rfl
  · have hlength : width + 2 - (decimalDigits n).length =
        width + 1 - (decimalDigits (n / 10)).length := by
      simp only [decimalDigits_step h, List.length_append, List.length_singleton]
      omega
    rw [zeroPadded, zeroPadded, hlength, decimalDigits_step h, List.append_assoc]

theorem zeroPadded_eq_fixedDigits {width n : Nat} (h : n < 10 ^ (width + 1)) :
    zeroPadded (width + 1) n = fixedDigits (width + 1) n := by
  induction width generalizing n with
  | zero =>
    rw [zeroPadded, decimalDigits_digit (by simpa using h)]
    rfl
  | succ width ih =>
    have hpow : 10 ^ (width + 1 + 1) = 10 ^ (width + 1) * 10 := Nat.pow_succ ..
    rw [zeroPadded_step, ih (by omega)]
    rfl

end Stdx.Foundation
