import Mathlib.Tactic

/-!
# Decimal numerals

`Nat.toDigits 10` prints a number and `Nat.ofDigitChars 10` reads a string of digits.
They are inverse exactly on the numerals without a leading zero.
-/

namespace Stdx.Foundation

abbrev Text := List Char

def decimal (n : Nat) : Text := Nat.toDigits 10 n

def decimalValue (s : Text) : Nat := Nat.ofDigitChars 10 s 0

@[simp] theorem decimalValue_decimal (n : Nat) : decimalValue (decimal n) = n :=
  Nat.ofDigitChars_ten_toDigits

theorem decimal_ne_nil (n : Nat) : decimal n ≠ [] := Nat.toDigits_ne_nil

theorem isDigit_of_mem_decimal {n : Nat} {c : Char} (h : c ∈ decimal n) : c.isDigit :=
  Nat.isDigit_of_mem_toDigits (by norm_num) le_rfl h

theorem decimal_injective : Function.Injective decimal :=
  Function.LeftInverse.injective decimalValue_decimal

theorem isDigit_iff (c : Char) : c.isDigit = true ↔ 48 ≤ c.toNat ∧ c.toNat ≤ 57 := by
  simp only [Char.isDigit, Bool.and_eq_true, decide_eq_true_eq, ge_iff_le]
  rfl

theorem digitChar_sub {c : Char} (h : c.isDigit) : (c.toNat - 48).digitChar = c := by
  obtain ⟨hlow, hhigh⟩ := (isDigit_iff c).mp h
  have hlt : c.toNat - 48 < 10 := by omega
  apply Char.toNat_inj.mp
  rw [Nat.toNat_digitChar_of_lt_ten hlt]
  omega

theorem decimalValue_concat (s : Text) (c : Char) :
    decimalValue (s ++ [c]) = 10 * decimalValue s + (c.toNat - 48) := by
  rw [decimalValue, Nat.ofDigitChars_append, Nat.ofDigitChars_cons, Nat.ofDigitChars_nil]
  rfl

theorem decimal_digit {d : Nat} (h : d < 10) : decimal d = [d.digitChar] :=
  Nat.toDigits_of_lt_base h

/-- A numeral that does not begin with a zero, unless it is the zero. -/
def NoLeadingZero (s : Text) : Prop := s.head? = some '0' → s = ['0']

theorem decimalValue_pos {s : Text} (hne : s ≠ []) (hdigits : ∀ c ∈ s, c.isDigit)
    (hzero : s.head? ≠ some '0') : 0 < decimalValue s := by
  induction s using List.reverseRecOn with
  | nil => exact absurd rfl hne
  | append_singleton s c ih =>
    rw [decimalValue_concat]
    by_cases hs : s = []
    · subst hs
      obtain ⟨hlow, -⟩ := (isDigit_iff c).mp (hdigits c (by simp))
      have hnot : c.toNat ≠ 48 := by
        intro heq
        apply hzero
        have : c = '0' := Char.toNat_inj.mp heq
        simp [this]
      omega
    · have := ih hs (fun d hd => hdigits d (by simp [hd])) (by
        rwa [List.head?_append_of_ne_nil s hs] at hzero)
      omega

theorem decimal_decimalValue {s : Text} (hne : s ≠ []) (hdigits : ∀ c ∈ s, c.isDigit)
    (hzero : NoLeadingZero s) : decimal (decimalValue s) = s := by
  induction s using List.reverseRecOn with
  | nil => exact absurd rfl hne
  | append_singleton s c ih =>
    have hc := hdigits c (by simp)
    obtain ⟨hlow, hhigh⟩ := (isDigit_iff c).mp hc
    rw [decimalValue_concat]
    by_cases hs : s = []
    · subst hs
      rw [show 10 * decimalValue [] + (c.toNat - 48) = c.toNat - 48 from Nat.zero_add _,
        decimal_digit (by omega), digitChar_sub hc, List.nil_append]
    · have hhead : s.head? ≠ some '0' := by
        intro h
        have hwhole := hzero (by rw [List.head?_append_of_ne_nil s hs, h])
        have hlen := congrArg List.length hwhole
        have hpos := List.length_pos_of_ne_nil hs
        rw [List.length_append, List.length_singleton, List.length_singleton] at hlen
        omega
      have hfront : ∀ d ∈ s, d.isDigit := fun d hd => hdigits d (by simp [hd])
      have hpos := decimalValue_pos hs hfront hhead
      have happend : decimal (decimalValue s) ++ decimal (c.toNat - 48) =
          decimal (10 * decimalValue s + (c.toNat - 48)) :=
        Nat.toDigits_append_toDigits (by norm_num) hpos (by omega)
      rw [← happend, ih hs hfront fun h => absurd h hhead, decimal_digit (by omega),
        digitChar_sub hc]

theorem noLeadingZero_decimal (n : Nat) : NoLeadingZero (decimal n) := by
  induction n using Nat.strong_induction_on with
  | _ n ih =>
    intro hhead
    rcases Nat.lt_or_ge n 10 with hlt | hge
    · rw [decimal_digit hlt] at hhead ⊢
      simpa using hhead
    · have hstep : decimal n = decimal (n / 10) ++ [(n % 10).digitChar] :=
        Nat.toDigits_of_base_le (by norm_num) hge
      rw [hstep, List.head?_append_of_ne_nil _ (decimal_ne_nil _)] at hhead
      have hzero := ih (n / 10) (by omega) hhead
      have hvalue : n / 10 = 0 := decimal_injective (hzero.trans rfl)
      omega

/-! ## Reading -/

def withoutPlus : Text → Text
  | '+' :: rest => rest
  | s => s

/-- `str::parse` of an unsigned integer type with the greatest value `limit`. -/
def parseUnsigned (limit : Nat) (s : Text) : Option Nat :=
  let digits := withoutPlus s
  if digits ≠ [] ∧ digits.all Char.isDigit ∧ decimalValue digits ≤ limit then
    some (decimalValue digits)
  else none

theorem parseUnsigned_digits (limit : Nat) {s : Text} (hne : s ≠ [])
    (hdigits : ∀ c ∈ s, c.isDigit) :
    parseUnsigned limit s = if decimalValue s ≤ limit then some (decimalValue s) else none := by
  have hplus : withoutPlus s = s := by
    cases s with
    | nil => rfl
    | cons c s =>
      have hc : c ≠ '+' := by
        rintro rfl
        exact absurd (hdigits '+' List.mem_cons_self) (by decide)
      simp [withoutPlus, hc]
  rw [parseUnsigned, hplus]
  simp only [hne, ne_eq, not_false_eq_true, List.all_eq_true.mpr hdigits, true_and]

end Stdx.Foundation
