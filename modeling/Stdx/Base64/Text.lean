import Stdx.Base64.Codec
import Stdx.Foundation.RangeMap

/-!
# Base64 text

The codec as a function on whole strings, one group at a time.  `encodeText`
leaves out the padding; `decodeText` takes the content without it and refuses
foreign characters, a lone last character and trailing bits that are not zero.
The two are inverse to each other.
-/

namespace Stdx.Base64

open Stdx.Foundation

section Characters

variable (alphabet : Alphabet)

def characters : RangeMap where
  segments := [⟨0, 25, 65⟩, ⟨26, 51, 97⟩, ⟨52, 61, 48⟩, ⟨62, 62, alphabet.lastTwo.1⟩,
    ⟨63, 63, alphabet.lastTwo.2⟩]
  bounded := by cases alphabet <;> decide
  apart := by cases alphabet <;> decide

theorem masked_point {c lo : UInt8} (h : Segment.Bounded ⟨lo, lo, c⟩) (v : UInt8) :
    c &&& ~~~notInRange v lo lo = (v - lo + c) &&& ~~~notInRange v lo lo := by
  apply RangeMap.masked_congr h
  intro hv
  change c = v - lo + c
  rw [UInt8.le_antisymm hv.2 hv.1, UInt8.sub_self, UInt8.zero_add]

theorem sextetToBase64Char_eq (v : UInt8) :
    sextetToBase64Char v alphabet = ((characters alphabet).apply (v &&& 0x3f)).getD 0 := by
  have hpoint62 := masked_point ((characters alphabet).bounded ⟨62, 62, alphabet.lastTwo.1⟩
    (by simp [characters])) (v &&& 0x3f)
  have hpoint63 := masked_point ((characters alphabet).bounded ⟨63, 63, alphabet.lastTwo.2⟩
    (by simp [characters])) (v &&& 0x3f)
  rw [← RangeMap.maskedValue_eq, sextetToBase64Char]
  simp only [hpoint62, hpoint63, UInt8.or_assoc]
  change _ = ((v &&& 0x3f) - 0 + 65 &&& _) ||| _
  rw [UInt8.sub_zero]
  rfl

theorem inverse_segments : (characters alphabet).inverse.segments =
    [⟨65, 90, 0⟩, ⟨97, 122, 26⟩, ⟨48, 57, 52⟩, ⟨alphabet.lastTwo.1, alphabet.lastTwo.1, 62⟩,
      ⟨alphabet.lastTwo.2, alphabet.lastTwo.2, 63⟩] := by
  cases alphabet <;> rfl

theorem base64CharToSextet_eq (c : UInt8) :
    base64CharToSextet c alphabet =
      ((characters alphabet).inverse.apply c).getD 0x40 := by
  have hbounded := (characters alphabet).inverse.bounded
  rw [inverse_segments] at hbounded
  have hpoint62 := masked_point (hbounded ⟨alphabet.lastTwo.1, alphabet.lastTwo.1, 62⟩ (by simp)) c
  have hpoint63 := masked_point (hbounded ⟨alphabet.lastTwo.2, alphabet.lastTwo.2, 63⟩ (by simp)) c
  rw [← RangeMap.masked_eq, base64CharToSextet, inverse_segments]
  simp only [RangeMap.maskedValue, RangeMap.maskedMiss, Segment.move, UInt8.add_zero, hpoint62,
    hpoint63, UInt8.or_assoc, UInt8.and_assoc]
  rfl

private theorem and_mask_of_lt {v : UInt8} (hv : v < 64) : v &&& 0x3f = v := by
  rw [← UInt8.toNat_inj, UInt8.toNat_and]
  have hlt := UInt8.lt_iff_toNat_lt.mp hv
  have hmod : v.toNat &&& 63 = v.toNat % 64 :=
    Nat.and_two_pow_sub_one_eq_mod _ 6
  exact hmod.trans (Nat.mod_eq_of_lt hlt)

private theorem lt_of_and_mask {v : UInt8} (h : v &&& 0x3f = v) : v < 64 := by
  rw [UInt8.lt_iff_toNat_lt, ← h, UInt8.toNat_and]
  have hmod : v.toNat &&& 63 = v.toNat % 64 :=
    Nat.and_two_pow_sub_one_eq_mod _ 6
  exact lt_of_eq_of_lt hmod (Nat.mod_lt _ (by omega))

theorem exists_character {v : UInt8} (hv : v < 64) :
    ∃ c, (characters alphabet).apply v = some c := by
  have hcover : ∃ s ∈ (characters alphabet).segments, s.Holds v := by
    have hlt := UInt8.lt_iff_toNat_lt.mp hv
    have h64 : (64 : UInt8).toNat = 64 := rfl
    simp only [characters, List.mem_cons, List.not_mem_nil, or_false, exists_eq_or_imp,
      exists_eq_left, Segment.Holds, UInt8.le_iff_toNat_le, UInt8.reduceToNat]
    omega
  obtain ⟨s, hs, hholds⟩ := hcover
  exact ⟨_, RangeMap.lookup_of_mem ((characters alphabet).apart.imp And.left) hs hholds⟩

theorem base64CharToSextet_char {v : UInt8} (hv : v < 64) :
    base64CharToSextet (sextetToBase64Char v alphabet) alphabet = v := by
  obtain ⟨c, hc⟩ := exists_character alphabet hv
  rw [sextetToBase64Char_eq, and_mask_of_lt hv, hc, base64CharToSextet_eq, Option.getD_some,
    RangeMap.inverse_apply hc, Option.getD_some]

theorem sextetToBase64Char_sextet {c : UInt8}
    (hc : base64CharToSextet c alphabet < 64) :
    sextetToBase64Char (base64CharToSextet c alphabet) alphabet = c := by
  have hmask := and_mask_of_lt hc
  rw [base64CharToSextet_eq] at hc hmask ⊢
  cases happly : (characters alphabet).inverse.apply c with
  | none =>
    rw [happly] at hc
    exact absurd hc (by decide)
  | some v =>
    rw [happly, Option.getD_some] at hmask
    rw [Option.getD_some, sextetToBase64Char_eq, hmask, RangeMap.apply_iff.mpr happly,
      Option.getD_some]

theorem sextetToBase64Char_range (v : UInt8) :
    ∃ s ∈ (characters alphabet).inverse.segments, s.Holds (sextetToBase64Char v alphabet) := by
  have hv : v &&& 0x3f < 64 := by
    apply lt_of_and_mask
    rw [UInt8.and_assoc]
    rfl
  obtain ⟨c, hc⟩ := exists_character alphabet hv
  obtain ⟨s, hs, hholds, -⟩ := RangeMap.lookup_mem (RangeMap.inverse_apply hc)
  rw [sextetToBase64Char_eq, hc, Option.getD_some]
  exact ⟨s, hs, hholds⟩

theorem sextetToBase64Char_ne_pad (v : UInt8) :
    sextetToBase64Char v alphabet ≠ pad := by
  intro hpad
  have hnone : ∀ s ∈ (characters alphabet).inverse.segments, ¬s.Holds pad := by
    cases alphabet <;> decide
  obtain ⟨s, hs, hholds⟩ := sextetToBase64Char_range alphabet v
  rw [hpad] at hholds
  exact hnone s hs hholds

end Characters

/-! ## Groups -/

section Groups

variable (alphabet : Alphabet)

def quad (b0 b1 b2 : UInt8) : Bytes :=
  [sextetToBase64Char (b0 >>> 2) alphabet,
    sextetToBase64Char (((b0 &&& 0x03) <<< 4) ||| (b1 >>> 4)) alphabet,
    sextetToBase64Char (((b1 &&& 0x0f) <<< 2) ||| (b2 >>> 6)) alphabet,
    sextetToBase64Char (b2 &&& 0x3f) alphabet]

def encodeText : Bytes → Bytes
  | b0 :: b1 :: b2 :: rest => quad alphabet b0 b1 b2 ++ encodeText rest
  | [b0, b1] =>
    [sextetToBase64Char (b0 >>> 2) alphabet,
      sextetToBase64Char (((b0 &&& 0x03) <<< 4) ||| (b1 >>> 4)) alphabet,
      sextetToBase64Char ((b1 &&& 0x0f) <<< 2) alphabet]
  | [b0] =>
    [sextetToBase64Char (b0 >>> 2) alphabet,
      sextetToBase64Char ((b0 &&& 0x03) <<< 4) alphabet]
  | [] => []

def sextet? (c : UInt8) : Option UInt8 :=
  let v := base64CharToSextet c alphabet
  if v < 64 then some v else none

@[grind =]
def decodeText : Bytes → Option Bytes
  | c0 :: c1 :: c2 :: c3 :: rest => do
      let v0 ← sextet? alphabet c0
      let v1 ← sextet? alphabet c1
      let v2 ← sextet? alphabet c2
      let v3 ← sextet? alphabet c3
      let octets ← decodeText rest
      some (((v0 <<< 2) ||| (v1 >>> 4)) :: ((v1 <<< 4) ||| (v2 >>> 2)) ::
        ((v2 <<< 6) ||| v3) :: octets)
  | [c0, c1, c2] => do
      let v0 ← sextet? alphabet c0
      let v1 ← sextet? alphabet c1
      let v2 ← sextet? alphabet c2
      if v2 &&& 0x03 ≠ 0 then none
      else some [(v0 <<< 2) ||| (v1 >>> 4), (v1 <<< 4) ||| (v2 >>> 2)]
  | [c0, c1] => do
      let v0 ← sextet? alphabet c0
      let v1 ← sextet? alphabet c1
      if v1 &&& 0x0f ≠ 0 then none else some [(v0 <<< 2) ||| (v1 >>> 4)]
  | [_] => none
  | [] => some []

end Groups

/-! ## Bits of a group -/

private theorem first_octet (b0 h : UInt8) :
    ((b0 >>> 2) <<< 2) ||| ((((b0 &&& 0x03) <<< 4) ||| (h >>> 4)) >>> 4) = b0 := by
  apply octet_ext
  intro i hi
  simp
  interval_cases i <;> simp

private theorem second_octet (b0 b1 b2 : UInt8) :
    ((((b0 &&& 0x03) <<< 4) ||| (b1 >>> 4)) <<< 4) |||
      ((((b1 &&& 0x0f) <<< 2) ||| (b2 >>> 6)) >>> 2) = b1 := by
  apply octet_ext
  intro i hi
  simp
  interval_cases i <;> simp

private theorem third_octet (b1 b2 : UInt8) :
    ((((b1 &&& 0x0f) <<< 2) ||| (b2 >>> 6)) <<< 6) ||| (b2 &&& 0x3f) = b2 := by
  apply octet_ext
  intro i hi
  simp
  interval_cases i <;> simp

private theorem first_sextet (v0 v1 : UInt8) :
    (((v0 &&& 0x3f) <<< 2) ||| ((v1 &&& 0x3f) >>> 4)) >>> 2 = v0 &&& 0x3f := by
  apply octet_ext
  intro i hi
  simp
  interval_cases i <;> simp

private theorem second_sextet (v0 v1 v2 : UInt8) :
    (((((v0 &&& 0x3f) <<< 2) ||| ((v1 &&& 0x3f) >>> 4)) &&& 0x03) <<< 4) |||
      ((((v1 &&& 0x3f) <<< 4) ||| ((v2 &&& 0x3f) >>> 2)) >>> 4) =
      v1 &&& 0x3f := by
  apply octet_ext
  intro i hi
  simp
  interval_cases i <;> simp

private theorem third_sextet (v1 v2 v3 : UInt8) :
    (((((v1 &&& 0x3f) <<< 4) ||| ((v2 &&& 0x3f) >>> 2)) &&& 0x0f) <<< 2) |||
      ((((v2 &&& 0x3f) <<< 6) ||| (v3 &&& 0x3f)) >>> 6) = v2 &&& 0x3f := by
  apply octet_ext
  intro i hi
  simp
  interval_cases i <;> simp

private theorem fourth_sextet (v2 v3 : UInt8) :
    ((((v2 &&& 0x3f) <<< 6) ||| (v3 &&& 0x3f)) &&& 0x3f) = v3 &&& 0x3f := by
  apply octet_ext
  intro i hi
  simp
  interval_cases i <;> simp

private theorem last_of_two (v0 v1 : UInt8) (h : v1 &&& 0x0f = 0) :
    (((((v0 &&& 0x3f) <<< 2) ||| ((v1 &&& 0x3f) >>> 4)) &&& 0x03) <<< 4) =
      v1 &&& 0x3f := by
  have hclear : v1 &&& 0x3f = v1 &&& 0x30 := by
    have hsplit : v1 &&& 0x3f = (v1 &&& 0x30) ||| (v1 &&& 0x0f) := by
      apply octet_ext
      intro i hi
      simp
      interval_cases i <;> simp
    rw [hsplit, h, UInt8.or_zero]
  rw [hclear]
  apply octet_ext
  intro i hi
  simp
  interval_cases i <;> simp

private theorem last_of_three (v1 v2 : UInt8) (h : v2 &&& 0x03 = 0) :
    (((((v1 &&& 0x3f) <<< 4) ||| ((v2 &&& 0x3f) >>> 2)) &&& 0x0f) <<< 2) =
      v2 &&& 0x3f := by
  have hclear : v2 &&& 0x3f = v2 &&& 0x3c := by
    have hsplit : v2 &&& 0x3f = (v2 &&& 0x3c) ||| (v2 &&& 0x03) := by
      apply octet_ext
      intro i hi
      simp
      interval_cases i <;> simp
    rw [hsplit, h, UInt8.or_zero]
  rw [hclear]
  apply octet_ext
  intro i hi
  simp
  interval_cases i <;> simp

/-! ## Inverses -/

section Inverses

variable (alphabet : Alphabet)

theorem sextet?_char {v : UInt8} (hv : v < 64) :
    sextet? alphabet (sextetToBase64Char v alphabet) = some v := by
  simp [sextet?, base64CharToSextet_char alphabet hv, hv]

theorem sextet?_eq_some {c v : UInt8} (h : sextet? alphabet c = some v) :
    v &&& 0x3f = v ∧ sextetToBase64Char v alphabet = c := by
  unfold sextet? at h
  simp only at h
  split at h
  · next hlt =>
    obtain rfl := Option.some.inj h
    exact ⟨and_mask_of_lt hlt, sextetToBase64Char_sextet alphabet hlt⟩
  · simp at h

theorem sextet_lt_first (b0 : UInt8) : b0 >>> 2 < 64 := by
  apply lt_of_and_mask
  apply octet_ext
  intro i hi
  simp
  interval_cases i <;> simp

theorem sextet_lt_second (b0 b1 : UInt8) :
    ((b0 &&& 0x03) <<< 4) ||| (b1 >>> 4) < 64 := by
  apply lt_of_and_mask
  apply octet_ext
  intro i hi
  simp
  interval_cases i <;> simp

theorem sextet_lt_third (b1 b2 : UInt8) :
    ((b1 &&& 0x0f) <<< 2) ||| (b2 >>> 6) < 64 := by
  apply lt_of_and_mask
  apply octet_ext
  intro i hi
  simp
  interval_cases i <;> simp

theorem sextet_lt_fourth (b2 : UInt8) : b2 &&& 0x3f < 64 := by
  apply lt_of_and_mask
  rw [UInt8.and_assoc]
  rfl

@[simp] theorem decodeText_encodeText (data : Bytes) :
    decodeText alphabet (encodeText alphabet data) = some data := by
  induction data using encodeText.induct with
  | case1 b0 b1 b2 rest ih =>
    simp only [encodeText, quad, List.cons_append, List.nil_append, decodeText,
      sextet?_char alphabet (sextet_lt_first b0),
      sextet?_char alphabet (sextet_lt_second b0 b1),
      sextet?_char alphabet (sextet_lt_third b1 b2),
      sextet?_char alphabet (sextet_lt_fourth b2), ih, Option.bind_eq_bind,
      Option.bind_some, first_octet, second_octet, third_octet]
  | case2 b0 b1 =>
    have hthird := sextet_lt_third b1 0
    have hsecond := second_octet b0 b1 0
    simp only [show (0 : UInt8) >>> 6 = 0 from rfl, UInt8.or_zero]
      at hthird hsecond
    have hzero : (b1 &&& 0x0f) <<< 2 &&& 0x03 = 0 := by
      apply octet_ext
      intro i hi
      simp
      interval_cases i <;> simp
    simp only [encodeText, decodeText,
      sextet?_char alphabet (sextet_lt_first b0),
      sextet?_char alphabet (sextet_lt_second b0 b1),
      sextet?_char alphabet hthird, Option.bind_eq_bind, Option.bind_some,
      hzero, ne_eq, not_true_eq_false, if_false, first_octet, hsecond]
  | case3 b0 =>
    have hsecond := sextet_lt_second b0 0
    have hfirst := first_octet b0 0
    simp only [show (0 : UInt8) >>> 4 = 0 from rfl, UInt8.or_zero]
      at hsecond hfirst
    have hzero : (b0 &&& 0x03) <<< 4 &&& 0x0f = 0 := by
      apply octet_ext
      intro i hi
      simp
      interval_cases i <;> simp
    simp only [encodeText, decodeText,
      sextet?_char alphabet (sextet_lt_first b0),
      sextet?_char alphabet hsecond, Option.bind_eq_bind, Option.bind_some,
      hzero, ne_eq, not_true_eq_false, if_false, hfirst]
  | case4 => rfl

theorem encodeText_of_decodeText {content data : Bytes}
    (h : decodeText alphabet content = some data) :
    encodeText alphabet data = content := by
  induction content using decodeText.induct generalizing data with
  | case1 c0 c1 c2 c3 rest ih =>
    simp only [decodeText, Option.bind_eq_bind, Option.bind_eq_some_iff] at h
    obtain ⟨v0, h0, v1, h1, v2, h2, v3, h3, octets, hrest, heq⟩ := h
    obtain rfl := Option.some.inj heq
    obtain ⟨m0, k0⟩ := sextet?_eq_some alphabet h0
    obtain ⟨m1, k1⟩ := sextet?_eq_some alphabet h1
    obtain ⟨m2, k2⟩ := sextet?_eq_some alphabet h2
    obtain ⟨m3, k3⟩ := sextet?_eq_some alphabet h3
    have q0 := first_sextet v0 v1
    have q1 := second_sextet v0 v1 v2
    have q2 := third_sextet v1 v2 v3
    have q3 := fourth_sextet v2 v3
    rw [m0, m1] at q0
    rw [m0, m1, m2] at q1
    rw [m1, m2, m3] at q2
    rw [m2, m3] at q3
    rw [encodeText, quad, q0, q1, q2, q3, k0, k1, k2, k3, ih hrest]
    rfl
  | case2 c0 c1 c2 =>
    simp only [decodeText, Option.bind_eq_bind, Option.bind_eq_some_iff] at h
    obtain ⟨v0, h0, v1, h1, v2, h2, heq⟩ := h
    split at heq
    · simp at heq
    next hzero =>
    obtain rfl := Option.some.inj heq
    obtain ⟨m0, k0⟩ := sextet?_eq_some alphabet h0
    obtain ⟨m1, k1⟩ := sextet?_eq_some alphabet h1
    obtain ⟨m2, k2⟩ := sextet?_eq_some alphabet h2
    have q0 := first_sextet v0 v1
    have q1 := second_sextet v0 v1 v2
    have q2 := last_of_three v1 v2 (not_not.mp hzero)
    rw [m0, m1] at q0
    rw [m0, m1, m2] at q1
    rw [m1, m2] at q2
    rw [encodeText, q0, q1, q2, k0, k1, k2]
  | case3 c0 c1 =>
    simp only [decodeText, Option.bind_eq_bind, Option.bind_eq_some_iff] at h
    obtain ⟨v0, h0, v1, h1, heq⟩ := h
    split at heq
    · simp at heq
    next hzero =>
    obtain rfl := Option.some.inj heq
    obtain ⟨m0, k0⟩ := sextet?_eq_some alphabet h0
    obtain ⟨m1, k1⟩ := sextet?_eq_some alphabet h1
    have q0 := first_sextet v0 v1
    have q1 := last_of_two v0 v1 (not_not.mp hzero)
    rw [m0, m1] at q0 q1
    rw [encodeText, q0, q1, k0, k1]
  | case4 c0 => simp [decodeText] at h
  | case5 =>
    obtain rfl := Option.some.inj h
    rfl

end Inverses

/-! ## Lengths -/

theorem encodeText_length (alphabet : Alphabet) (data : Bytes) :
    (encodeText alphabet data).length =
      data.length / 3 * 4 +
        (if data.length % 3 = 0 then 0 else data.length % 3 + 1) := by
  induction data using encodeText.induct with
  | case1 b0 b1 b2 rest ih =>
    have hdiv : (rest.length + 3) / 3 = rest.length / 3 + 1 := by omega
    have hmod : (rest.length + 3) % 3 = rest.length % 3 := by omega
    simp only [encodeText, quad, List.length_append, List.length_cons,
      List.length_nil, ih, hdiv, hmod, Nat.add_assoc, Nat.reduceAdd]
    omega
  | case2 b0 b1 => simp [encodeText]
  | case3 b0 => simp [encodeText]
  | case4 => simp [encodeText]

theorem encodeText_forall {alphabet : Alphabet} {p : UInt8 → Prop}
    (h : ∀ v, p (sextetToBase64Char v alphabet)) (data : Bytes) :
    ∀ c ∈ encodeText alphabet data, p c := by
  induction data using encodeText.induct with
  | case1 b0 b1 b2 rest ih =>
    intro c hc
    simp only [encodeText, quad, List.cons_append, List.nil_append,
      List.mem_cons] at hc
    rcases hc with rfl | rfl | rfl | rfl | hc
    · exact h _
    · exact h _
    · exact h _
    · exact h _
    · exact ih c hc
  | case2 b0 b1 => simp [encodeText, h]
  | case3 b0 => simp [encodeText, h]
  | case4 => simp [encodeText]

theorem encodeText_ne_pad (alphabet : Alphabet) (data : Bytes) :
    ∀ c ∈ encodeText alphabet data, c ≠ pad :=
  encodeText_forall (sextetToBase64Char_ne_pad alphabet) data

end Stdx.Base64
