import Mathlib.Data.Nat.Digits.Defs
import Mathlib.Data.Nat.Digits.Lemmas
import Mathlib.Tactic

/-!
# Big-endian octet strings

Natural numbers as big-endian strings of octets.  `beValue` reads any string,
leading zeros included; `beOctets` is the shortest string with a given value.
The two are inverse exactly on the strings that do not start with a zero octet.
-/

namespace Stdx.Foundation

abbrev Bytes := List UInt8

/-- `[u8; N]` -/
@[ext]
structure FixedBytes (N : Nat) where
  octets : Bytes
  length_eq : octets.length = N
  deriving DecidableEq

def FixedBytes.zeroed (N : Nat) : FixedBytes N := ⟨List.replicate N 0, by simp⟩

theorem octet_ext {a b : UInt8}
    (h : ∀ i, i < 8 → a.toBitVec.getLsbD i = b.toBitVec.getLsbD i) : a = b :=
  UInt8.eq_of_toBitVec_eq (BitVec.eq_of_getLsbD_eq h)

theorem forall_octet {p : UInt8 → Prop} (h : ∀ n : Fin 256, p (UInt8.ofNat n))
    (c : UInt8) : p c := by
  have := h ⟨c.toNat, c.toNat_lt⟩
  simpa using this

theorem forall_octet_below {p : UInt8 → Prop} {bound : UInt8}
    (h : ∀ n : Fin bound.toNat, p (UInt8.ofNat n)) : ∀ c < bound, p c := by
  intro c hc
  have hself := h ⟨c.toNat, UInt8.lt_iff_toNat_lt.mp hc⟩
  rwa [UInt8.ofNat_toNat] at hself

def beValue (octets : Bytes) : Nat :=
  octets.foldl (fun acc octet => acc * 256 + octet.toNat) 0

def beOctets (n : Nat) : Bytes :=
  ((Nat.digits 256 n).map UInt8.ofNat).reverse

@[simp] theorem beValue_nil : beValue [] = 0 := rfl

@[simp] theorem beValue_concat (octets : Bytes) (octet : UInt8) :
    beValue (octets ++ [octet]) = beValue octets * 256 + octet.toNat := by
  simp [beValue]

theorem beValue_eq_ofDigits (octets : Bytes) :
    beValue octets = Nat.ofDigits 256 (octets.reverse.map UInt8.toNat) := by
  induction octets using List.reverseRecOn with
  | nil => simp
  | append_singleton octets octet ih =>
    rw [beValue_concat, ih]
    simp [Nat.ofDigits_cons]
    omega

theorem beValue_append (front back : Bytes) :
    beValue (front ++ back) =
      beValue front * 256 ^ back.length + beValue back := by
  induction back using List.reverseRecOn with
  | nil => simp
  | append_singleton back octet ih =>
    rw [← List.append_assoc, beValue_concat, ih, beValue_concat]
    simp only [List.length_append, List.length_cons, List.length_nil, pow_succ]
    ring

theorem beValue_cons (octet : UInt8) (octets : Bytes) :
    beValue (octet :: octets) =
      octet.toNat * 256 ^ octets.length + beValue octets := by
  have h := beValue_append [octet] octets
  simpa [beValue] using h

theorem beValue_lt (octets : Bytes) :
    beValue octets < 256 ^ octets.length := by
  induction octets using List.reverseRecOn with
  | nil => simp
  | append_singleton octets octet ih =>
    have hoctet := octet.toNat_lt
    rw [beValue_concat]
    simp only [List.length_append, List.length_cons, List.length_nil, pow_succ]
    omega

private theorem map_toNat_ofNat_digits (n : Nat) :
    ((Nat.digits 256 n).map UInt8.ofNat).map UInt8.toNat = Nat.digits 256 n := by
  rw [List.map_map]
  conv_rhs => rw [← List.map_id (Nat.digits 256 n)]
  apply List.map_congr_left
  intro digit hdigit
  have hlt : digit < 256 := Nat.digits_lt_base (by omega) hdigit
  simp [Nat.mod_eq_of_lt hlt]

@[simp] theorem beValue_beOctets (n : Nat) : beValue (beOctets n) = n := by
  rw [beValue_eq_ofDigits, beOctets, List.reverse_reverse,
    map_toNat_ofNat_digits, Nat.ofDigits_digits]

/-- Reading back and rewriting drops nothing when no leading zero is present. -/
theorem beOctets_beValue (octets : Bytes) (hhead : octets.head? ≠ some 0) :
    beOctets (beValue octets) = octets := by
  have hdigits :
      Nat.digits 256 (beValue octets) = octets.reverse.map UInt8.toNat := by
    rw [beValue_eq_ofDigits]
    apply Nat.digits_ofDigits 256 (by omega)
    · intro digit hdigit
      obtain ⟨octet, -, rfl⟩ := List.mem_map.mp hdigit
      exact octet.toNat_lt
    · intro hne hlast
      cases octets with
      | nil => simp at hne
      | cons octet octets =>
        apply hhead
        simp only [List.reverse_cons, List.map_append, List.map_cons,
          List.map_nil, List.getLast_append_singleton] at hlast
        simpa [← UInt8.toNat_inj] using hlast
  rw [beOctets, hdigits, List.map_map, ← List.map_reverse, List.reverse_reverse]
  simp [Function.comp_def]

theorem beOctets_head?_ne_zero (n : Nat) : (beOctets n).head? ≠ some 0 := by
  by_cases hn : n = 0
  · simp [hn, beOctets]
  · intro hzero
    have hlast := Nat.getLast_digit_ne_zero 256 hn
    rw [beOctets, List.head?_reverse, List.getLast?_map] at hzero
    obtain ⟨digit, hdigit, hdigit0⟩ := Option.map_eq_some_iff.mp hzero
    obtain ⟨hne, hdigit⟩ := List.mem_getLast?_eq_getLast hdigit
    have hlt : digit < 256 := by
      rw [hdigit]
      exact Nat.digits_lt_base (by omega) (List.getLast_mem hne)
    apply hlast
    rw [← hdigit]
    simpa [← UInt8.toNat_inj, Nat.mod_eq_of_lt hlt] using hdigit0

theorem beOctets_length_le {n k : Nat} (h : n < 256 ^ k) :
    (beOctets n).length ≤ k := by
  rw [beOctets, List.length_reverse, List.length_map]
  exact Nat.digits_length_le_iff (by omega) n |>.mpr h

theorem beOctets_length_eq {n k : Nat} (hlow : 256 ^ (k - 1) ≤ n) (hhigh : n < 256 ^ k) :
    (beOctets n).length = k := by
  have hle := beOctets_length_le hhigh
  have hlt := beValue_lt (beOctets n)
  rw [beValue_beOctets] at hlt
  have := (Nat.pow_lt_pow_iff_right (by omega : 1 < 256)).mp (hlow.trans_lt hlt)
  omega

/-! ## Fixed lengths -/

@[grind =]
def fixedOctets : Nat → Nat → Bytes
  | 0, _ => []
  | length + 1, n => fixedOctets length (n / 256) ++ [UInt8.ofNat n]

@[simp] theorem fixedOctets_length (length n : Nat) :
    (fixedOctets length n).length = length := by
  induction length generalizing n with
  | zero => rfl
  | succ length ih => simp [fixedOctets, ih]

theorem beValue_fixedOctets (length n : Nat) :
    beValue (fixedOctets length n) = n % 256 ^ length := by
  induction length generalizing n with
  | zero => simp [fixedOctets, Nat.mod_one]
  | succ length ih =>
    rw [fixedOctets, beValue_concat, ih, UInt8.toNat_ofNat',
      pow_succ' 256 length, Nat.mod_mul]
    omega

theorem beValue_take_drop (octets : Bytes) (i : Nat) :
    beValue octets = beValue (octets.take i) * 256 ^ (octets.length - i) +
      beValue (octets.drop i) := by
  conv_lhs => rw [← List.take_append_drop i octets]
  rw [beValue_append, List.length_drop]

theorem beValue_inj {a b : Bytes} (hlength : a.length = b.length)
    (h : beValue a = beValue b) : a = b := by
  induction a generalizing b with
  | nil =>
    cases b with
    | nil => rfl
    | cons y ys => simp at hlength
  | cons x xs ih =>
    cases b with
    | nil => simp at hlength
    | cons y ys =>
      have hlen : xs.length = ys.length := by simpa using hlength
      rw [beValue_cons, beValue_cons, hlen] at h
      have hx := beValue_lt xs
      have hy := beValue_lt ys
      rw [hlen] at hx
      have hpos : 0 < 256 ^ ys.length := by positivity
      have hhead : x.toNat = y.toNat := by
        have := congrArg (· / 256 ^ ys.length) h
        simpa [Nat.add_comm (_ * _), Nat.add_mul_div_right _ _ hpos,
          Nat.div_eq_of_lt hx, Nat.div_eq_of_lt hy] using this
      rw [UInt8.toNat_inj.mp hhead, ih hlen (by rw [hhead] at h; omega)]

theorem beValue_take_end (octets : Bytes) (k : Nat) :
    beValue (octets.take (octets.length - k)) = beValue octets / 256 ^ k := by
  have hlt := beValue_lt (octets.drop (octets.length - k))
  rcases Nat.le_total k octets.length with h | h
  · have hsub : octets.length - (octets.length - k) = k := Nat.sub_sub_self h
    rw [beValue_take_drop octets (octets.length - k), hsub, Nat.mul_comm,
      Nat.mul_add_div (by positivity), Nat.div_eq_of_lt, Nat.add_zero]
    rwa [List.length_drop, hsub] at hlt
  · rw [Nat.sub_eq_zero_of_le h, List.take_zero, beValue_nil, Nat.div_eq_of_lt]
    exact (beValue_lt octets).trans_le (Nat.pow_le_pow_right (by omega) h)

theorem beValue_drop_end (octets : Bytes) (k : Nat) :
    beValue (octets.drop (octets.length - k)) = beValue octets % 256 ^ k := by
  have hlt := beValue_lt (octets.drop (octets.length - k))
  rcases Nat.le_total k octets.length with h | h
  · have hsub : octets.length - (octets.length - k) = k := Nat.sub_sub_self h
    rw [List.length_drop, hsub] at hlt
    rw [beValue_take_drop octets (octets.length - k), hsub, Nat.mul_comm,
      Nat.mul_add_mod, Nat.mod_eq_of_lt hlt]
  · rw [Nat.sub_eq_zero_of_le h, List.drop_zero, Nat.mod_eq_of_lt]
    exact (beValue_lt octets).trans_le (Nat.pow_le_pow_right (by omega) h)

theorem beValue_zeros_append (count : Nat) (octets : Bytes) :
    beValue (List.replicate count 0 ++ octets) = beValue octets := by
  induction count with
  | zero => rfl
  | succ count ih =>
    rw [List.replicate_succ, List.cons_append, beValue_cons, ih]
    simp

theorem fixedOctets_mod (length n : Nat) :
    fixedOctets length (n % 256 ^ length) = fixedOctets length n := by
  apply beValue_inj (by simp)
  rw [beValue_fixedOctets, beValue_fixedOctets, Nat.mod_mod]

theorem fixedOctets_add (front back n : Nat) :
    fixedOctets (front + back) n =
      fixedOctets front (n / 256 ^ back) ++ fixedOctets back n := by
  induction back generalizing n with
  | zero => simp [fixedOctets]
  | succ back ih =>
    rw [← Nat.add_assoc, fixedOctets, ih, Nat.div_div_eq_div_mul, ← pow_succ',
      List.append_assoc]
    rfl

theorem fixedOctets_drop {length k : Nat} (h : k ≤ length) (n : Nat) :
    (fixedOctets length n).drop (length - k) = fixedOctets k n := by
  have hsplit := fixedOctets_add (length - k) k n
  rw [Nat.sub_add_cancel h] at hsplit
  rw [hsplit, List.drop_left' (fixedOctets_length _ _)]

/-! ## Single octets, counted from the end -/

theorem getD_toNat_beValue {o : Bytes} {i : Nat} (hi : i < o.length) :
    (o.getD (o.length - 1 - i) 0).toNat =
      beValue o / 256 ^ i % 256 := by
  induction o using List.reverseRecOn generalizing i with
  | nil => simp at hi
  | append_singleton o octet ih =>
    have hoctet := octet.toNat_lt
    rw [beValue_concat, List.length_append, List.length_singleton,
      List.getD_eq_getElem?_getD]
    cases i with
    | zero =>
      rw [List.getElem?_append_right (by omega)]
      simp
    | succ i =>
      rw [List.length_append, List.length_singleton] at hi
      rw [show o.length + 1 - 1 - (i + 1) = o.length - 1 - i by omega,
        List.getElem?_append_left (by omega), ← List.getD_eq_getElem?_getD,
        ih (by omega), pow_succ', ← Nat.div_div_eq_div_mul]
      congr 2
      omega

theorem beValue_set {octets : Bytes} {i : Nat} (hi : i < octets.length)
    (octet : UInt8) :
    beValue (octets.set (octets.length - 1 - i) octet) +
        256 ^ i * (octets.getD (octets.length - 1 - i) 0).toNat =
      beValue octets + 256 ^ i * octet.toNat := by
  induction octets using List.reverseRecOn generalizing i with
  | nil => simp at hi
  | append_singleton octets last ih =>
    rw [List.length_append, List.length_singleton] at hi
    rw [List.length_append, List.length_singleton, List.getD_eq_getElem?_getD]
    cases i with
    | zero =>
      rw [List.set_append_right _ _ (by omega),
        List.getElem?_append_right (by omega)]
      simp
      omega
    | succ i =>
      have hprev := ih (i := i) (by omega)
      rw [show octets.length + 1 - 1 - (i + 1) = octets.length - 1 - i by omega,
        List.set_append_left _ _ (by omega),
        List.getElem?_append_left (by omega), ← List.getD_eq_getElem?_getD,
        beValue_concat, beValue_concat, pow_succ']
      have hmul := congrArg (256 * ·) hprev
      simp only [Nat.mul_add] at hmul
      rw [Nat.mul_assoc, Nat.mul_assoc]
      omega

end Stdx.Foundation
