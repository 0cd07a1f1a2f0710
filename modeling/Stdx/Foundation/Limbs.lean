import Mathlib.Tactic

/-!
# Little-endian limbs

A list of 64-bit words read as a natural number in base `2 ^ 64`, least
significant word first.  Splitting the list is division by a power of the
radix, and a list is determined by its length and its value.
-/

namespace Stdx.Foundation

abbrev Limbs := List UInt64

def radix : Nat := 2 ^ 64

theorem radix_pos : 0 < radix := by decide

theorem one_lt_radix : 1 < radix := by decide

theorem toNat_lt_radix (word : UInt64) : word.toNat < radix := word.toNat_lt

theorem toNat_ofNat_radix (n : Nat) : (UInt64.ofNat n).toNat = n % radix :=
  UInt64.toNat_ofNat'

def limbsValue : Limbs → Nat
  | [] => 0
  | word :: words => word.toNat + radix * limbsValue words

@[simp] theorem limbsValue_nil : limbsValue [] = 0 := rfl

@[simp] theorem limbsValue_cons (word : UInt64) (words : Limbs) :
    limbsValue (word :: words) = word.toNat + radix * limbsValue words := rfl

theorem limbsValue_lt (words : Limbs) :
    limbsValue words < radix ^ words.length := by
  induction words with
  | nil => simp
  | cons word words ih =>
    have hword := toNat_lt_radix word
    rw [limbsValue_cons, List.length_cons, pow_succ]
    calc word.toNat + radix * limbsValue words
        < radix + radix * limbsValue words := by omega
      _ = radix * (limbsValue words + 1) := by ring
      _ ≤ radix * radix ^ words.length := Nat.mul_le_mul_left _ ih
      _ = radix ^ words.length * radix := by ring

theorem limbsValue_append (low high : Limbs) :
    limbsValue (low ++ high) =
      limbsValue low + radix ^ low.length * limbsValue high := by
  induction low with
  | nil => simp
  | cons word low ih =>
    simp only [List.cons_append, limbsValue_cons, ih, List.length_cons, pow_succ]
    ring

@[simp] theorem limbsValue_replicate_zero (count : Nat) :
    limbsValue (List.replicate count 0) = 0 := by
  induction count with
  | zero => rfl
  | succ count ih => simp [List.replicate_succ, ih]

theorem limbsValue_take_drop {count : Nat} {words : Limbs}
    (h : count ≤ words.length) :
    limbsValue words = limbsValue (words.take count) +
      radix ^ count * limbsValue (words.drop count) := by
  conv_lhs => rw [← List.take_append_drop count words]
  rw [limbsValue_append, List.length_take_of_le h]

theorem limbsValue_take (count : Nat) (words : Limbs) :
    limbsValue (words.take count) = limbsValue words % radix ^ count := by
  rcases Nat.le_total count words.length with h | h
  · have hlt := limbsValue_lt (words.take count)
    rw [List.length_take_of_le h] at hlt
    rw [limbsValue_take_drop h, Nat.add_mul_mod_self_left, Nat.mod_eq_of_lt hlt]
  · have hlt := limbsValue_lt words
    rw [List.take_of_length_le h, Nat.mod_eq_of_lt]
    exact hlt.trans_le (Nat.pow_le_pow_right radix_pos h)

theorem limbsValue_drop (count : Nat) (words : Limbs) :
    limbsValue (words.drop count) = limbsValue words / radix ^ count := by
  rcases Nat.le_total count words.length with h | h
  · have hlt := limbsValue_lt (words.take count)
    rw [List.length_take_of_le h] at hlt
    rw [limbsValue_take_drop h, Nat.add_mul_div_left _ _ (pow_pos radix_pos _),
      Nat.div_eq_of_lt hlt, Nat.zero_add]
  · have hlt := limbsValue_lt words
    rw [List.drop_of_length_le h, Nat.div_eq_of_lt, limbsValue_nil]
    exact hlt.trans_le (Nat.pow_le_pow_right radix_pos h)

theorem limbsValue_inj {a b : Limbs} (hlength : a.length = b.length)
    (h : limbsValue a = limbsValue b) : a = b := by
  induction a generalizing b with
  | nil =>
    cases b with
    | nil => rfl
    | cons word words => simp at hlength
  | cons x xs ih =>
    cases b with
    | nil => simp at hlength
    | cons y ys =>
      simp only [limbsValue_cons] at h
      have hx := toNat_lt_radix x
      have hy := toNat_lt_radix y
      have hhead : x.toNat = y.toNat := by
        have := congrArg (· % radix) h
        simpa [Nat.mod_eq_of_lt hx, Nat.mod_eq_of_lt hy] using this
      have htail : limbsValue xs = limbsValue ys := by
        have hmul : radix * limbsValue xs = radix * limbsValue ys := by omega
        exact Nat.eq_of_mul_eq_mul_left radix_pos hmul
      rw [UInt64.toNat_inj.mp hhead, ih (by simpa using hlength) htail]

theorem getD_toNat (words : Limbs) (i : Nat) :
    (words.getD i 0).toNat = limbsValue words / radix ^ i % radix := by
  rw [← limbsValue_drop]
  rcases Nat.lt_or_ge i words.length with h | h
  · rw [List.drop_eq_getElem_cons h, limbsValue_cons, Nat.add_mul_mod_self_left,
      Nat.mod_eq_of_lt (toNat_lt_radix _)]
    simp [List.getD_eq_getElem?_getD, List.getElem?_eq_getElem h]
  · rw [List.drop_of_length_le h]
    simp [List.getD_eq_getElem?_getD, List.getElem?_eq_none h]

theorem limbsValue_set {w : Limbs} {i : Nat} (h : i < w.length)
    (word : UInt64) :
    limbsValue (w.set i word) + radix ^ i * (w.getD i 0).toNat =
      limbsValue w + radix ^ i * word.toNat := by
  induction w generalizing i with
  | nil => simp at h
  | cons first rest ih =>
    cases i with
    | zero => simp; omega
    | succ i =>
      have hrest := ih (i := i) (by simpa using h)
      simp only [List.set_cons_succ, limbsValue_cons, List.getD_cons_succ,
        pow_succ]
      have : radix * (limbsValue (rest.set i word) +
          radix ^ i * (rest.getD i 0).toNat) =
        radix * (limbsValue rest + radix ^ i * word.toNat) := by rw [hrest]
      linear_combination this

/-! ## Limbs of a number -/

@[grind =]
def limbsOf : Nat → Nat → Limbs
  | 0, _ => []
  | count + 1, n => UInt64.ofNat n :: limbsOf count (n / radix)

@[simp] theorem limbsOf_length (count n : Nat) : (limbsOf count n).length = count := by
  induction count generalizing n with
  | zero => rfl
  | succ count ih => simp [limbsOf, ih]

theorem limbsValue_limbsOf (count n : Nat) :
    limbsValue (limbsOf count n) = n % radix ^ count := by
  induction count generalizing n with
  | zero => simp [limbsOf, Nat.mod_one]
  | succ count ih =>
    rw [limbsOf, limbsValue_cons, ih, toNat_ofNat_radix, pow_succ', Nat.mod_mul]

theorem limbsValue_map_range {f : Nat → UInt64} {n : Nat}
    (h : ∀ i, (f i).toNat = n / radix ^ i % radix) (count : Nat) :
    limbsValue ((List.range count).map f) = n % radix ^ count := by
  induction count with
  | zero => simp [Nat.mod_one]
  | succ count ih =>
    rw [List.range_succ, List.map_append, limbsValue_append, ih, List.length_map,
      List.length_range, Nat.mod_pow_succ, List.map_singleton, limbsValue_cons, h]
    simp

end Stdx.Foundation
