import Stdx.Foundation.Octets

/-!
# Positional numerals

Numerals in a base up to 36, most significant digit first, in ASCII digits and
letters of either case.  A numeral without leading zeros has at most one digit
more than the bits of its value leave room for.
-/

namespace Stdx.Foundation

def DigitChar (c : UInt8) (d : Nat) : Prop :=
  (d < 10 ∧ c.toNat = 48 + d) ∨
    (10 ≤ d ∧ d < 36 ∧ (c.toNat = 87 + d ∨ c.toNat = 55 + d))

structure Spells (base : Nat) (s : Bytes) (ds : List Nat) : Prop where
  chars : List.Forall₂ DigitChar s ds
  lt_base : ∀ d ∈ ds, d < base

def IsNumeral (base : Nat) (s : Bytes) (n : Nat) : Prop :=
  ∃ ds, Spells base s ds ∧ Nat.ofDigits base ds.reverse = n

variable {base : Nat} {s : Bytes} {ds : List Nat}

theorem Spells.length_eq (h : Spells base s ds) : ds.length = s.length :=
  h.chars.length_eq.symm

theorem Spells.nil : Spells base [] [] := ⟨.nil, by simp⟩

theorem Spells.cons {c : UInt8} {d : Nat} (hchar : DigitChar c d) (hlt : d < base)
    (h : Spells base s ds) : Spells base (c :: s) (d :: ds) := by
  refine ⟨.cons hchar h.chars, fun e he => ?_⟩
  rcases List.mem_cons.mp he with rfl | he
  · exact hlt
  · exact h.lt_base e he

theorem Spells.of_nil (h : Spells base [] ds) : ds = [] := by
  obtain ⟨hchars, -⟩ := h
  cases hchars
  rfl

theorem Spells.uncons {c : UInt8} (h : Spells base (c :: s) ds) :
    ∃ d rest, ds = d :: rest ∧ DigitChar c d ∧ d < base ∧ Spells base s rest := by
  obtain ⟨hchars, hlt⟩ := h
  cases hchars with
  | cons hchar hrest =>
    refine ⟨_, _, rfl, hchar, hlt _ List.mem_cons_self, hrest, fun d hd => ?_⟩
    exact hlt d (List.mem_cons_of_mem _ hd)

theorem ofDigits_reverse_cons (d : Nat) (ds : List Nat) :
    Nat.ofDigits base (d :: ds).reverse =
      d * base ^ ds.length + Nat.ofDigits base ds.reverse := by
  rw [List.reverse_cons, Nat.ofDigits_append, List.length_reverse,
    Nat.ofDigits_singleton]
  ring

/-! ## Leading zeros -/

theorem DigitChar.zero_iff {c : UInt8} {d : Nat} (h : DigitChar c d) :
    c = 48 ↔ d = 0 := by
  rw [← UInt8.toNat_inj]
  change c.toNat = 48 ↔ d = 0
  unfold DigitChar at h
  omega

theorem isNumeral_zero_cons {n : Nat} (hbase : 0 < base) :
    IsNumeral base (48 :: s) n ↔ IsNumeral base s n := by
  constructor
  · rintro ⟨ds, hspell, rfl⟩
    obtain ⟨d, rest, rfl, hchar, -, hrest⟩ := hspell.uncons
    obtain rfl := hchar.zero_iff.mp rfl
    exact ⟨rest, hrest, by rw [ofDigits_reverse_cons, Nat.zero_mul, Nat.zero_add]⟩
  · rintro ⟨ds, hspell, rfl⟩
    refine ⟨0 :: ds, hspell.cons ?_ hbase, ?_⟩
    · exact .inl ⟨by omega, rfl⟩
    · rw [ofDigits_reverse_cons, Nat.zero_mul, Nat.zero_add]

theorem isNumeral_dropWhile_zero {n : Nat} (hbase : 0 < base) :
    IsNumeral base (s.dropWhile (· == 48)) n ↔ IsNumeral base s n := by
  induction s with
  | nil => rfl
  | cons c s ih =>
    rw [List.dropWhile_cons]
    split
    · next h =>
      obtain rfl : c = 48 := by simpa using h
      rw [ih, isNumeral_zero_cons hbase]
    · rfl

/-! ## Length -/

theorem IsNumeral.pow_le {n : Nat} (h : IsNumeral base s n)
    (hzero : s.head? ≠ some 48) (hne : s ≠ []) : base ^ (s.length - 1) ≤ n := by
  obtain ⟨ds, hspell, rfl⟩ := h
  cases s with
  | nil => exact absurd rfl hne
  | cons c s =>
    obtain ⟨d, rest, rfl, hchar, -, hrest⟩ := hspell.uncons
    have hpos : 1 ≤ d := by
      have : ¬ c = 48 := by simpa using hzero
      rw [hchar.zero_iff] at this
      omega
    rw [ofDigits_reverse_cons, List.length_cons, Nat.add_sub_cancel,
      ← hrest.length_eq]
    calc base ^ rest.length = 1 * base ^ rest.length := (Nat.one_mul _).symm
      _ ≤ d * base ^ rest.length := Nat.mul_le_mul_right _ hpos
      _ ≤ _ := Nat.le_add_right _ _

theorem IsNumeral.length_le {n bits : Nat} (h : IsNumeral base s n)
    (hzero : s.head? ≠ some 48) (hbase : 2 ≤ base) (hn : n < 2 ^ bits) :
    s.length ≤ bits / Nat.log2 base + 1 := by
  rcases eq_or_ne s [] with rfl | hne
  · exact Nat.zero_le _
  have hlog : 0 < Nat.log2 base := (Nat.le_log2 (by omega)).mpr (by simpa using hbase)
  have hpow : 2 ^ (Nat.log2 base * (s.length - 1)) < 2 ^ bits :=
    calc 2 ^ (Nat.log2 base * (s.length - 1))
        = (2 ^ Nat.log2 base) ^ (s.length - 1) := pow_mul _ _ _
      _ ≤ base ^ (s.length - 1) :=
          Nat.pow_le_pow_left (Nat.log2_self_le (by omega)) _
      _ ≤ n := h.pow_le hzero hne
      _ < 2 ^ bits := hn
  have hlt := (Nat.pow_lt_pow_iff_right (by omega)).mp hpow
  have hdiv : s.length - 1 ≤ bits / Nat.log2 base := by
    rw [Nat.le_div_iff_mul_le hlog, Nat.mul_comm]
    exact hlt.le
  omega

/-! ## Writing -/

/-- The digits of `n`, least significant first, written the other way round. -/
theorem isNumeral_digits {digitChar : Nat → UInt8} (hbase : 2 ≤ base)
    (hchar : ∀ d, d < base → DigitChar (digitChar d) d) (n : Nat) :
    IsNumeral base ((Nat.digits base n).map digitChar).reverse n := by
  refine ⟨(Nat.digits base n).reverse, ⟨?_, ?_⟩, ?_⟩
  · rw [List.forall₂_reverse_iff]
    refine List.forall₂_map_left_iff.mpr (List.forall₂_same.mpr fun d hd => ?_)
    exact hchar d (Nat.digits_lt_base hbase hd)
  · intro d hd
    exact Nat.digits_lt_base hbase (List.mem_reverse.mp hd)
  · rw [List.reverse_reverse, Nat.ofDigits_digits]

end Stdx.Foundation
