import Mathlib
import Stdx.Base32.Codec
import Stdx.Foundation.Padding
import Stdx.Foundation.RangeMap
import Mathlib.Data.List.GetD

/-!
# Base32 text

The codec as a function on whole strings.  A group of up to five octets is forty bits, cut
into eight quintets; a short group is read as if zero octets followed, and only the
characters that carry its bits are written.
-/

namespace Stdx.Base32

open Stdx.Foundation

/-! ## Characters -/

/-- A character for each quintet, and the quintet of each character. -/
structure Charset (toChar toQuintet : UInt8 → UInt8) : Prop where
  quintet_char : ∀ v, v < 32 → toQuintet (toChar v) = v
  char_quintet : ∀ c, toQuintet c < 32 → toChar (toQuintet c) = c
  pad : ¬toQuintet PAD < 32

theorem Charset.of_rangeMap (m : RangeMap) {toChar toQuintet : UInt8 → UInt8}
    (hcover : ∀ v : Fin 32, (m.apply (UInt8.ofNat v)).isSome)
    (hchar : ∀ v, toChar v = (m.apply v).getD 0)
    (hquintet : ∀ c, toQuintet c = (m.inverse.apply c).getD 0x20)
    (hpad : m.inverse.apply PAD = none) : Charset toChar toQuintet where
  quintet_char v hv := by
    have hlt : v.toNat < 32 := UInt8.lt_iff_toNat_lt.mp hv
    have hsome := hcover ⟨v.toNat, hlt⟩
    rw [UInt8.ofNat_toNat] at hsome
    obtain ⟨c, hc⟩ := Option.isSome_iff_exists.mp hsome
    rw [hchar, hc, hquintet, Option.getD_some, RangeMap.inverse_apply hc, Option.getD_some]
  char_quintet c hc := by
    rw [hquintet] at hc ⊢
    cases happly : m.inverse.apply c with
    | none =>
      rw [happly] at hc
      exact absurd hc (by decide)
    | some v => rw [Option.getD_some, hchar, RangeMap.apply_iff.mpr happly, Option.getD_some]
  pad := by
    rw [hquintet, hpad]
    decide

theorem quintetToRanges_eq (last first second v : UInt8) :
    quintetToRanges last first second v =
      RangeMap.maskedValue [⟨0, last, first⟩, ⟨last + 1, 31, second⟩] v := by
  simp only [quintetToRanges, RangeMap.maskedValue, Segment.move, UInt8.sub_zero]
  rfl

theorem rangesToQuintet_eq (first firstEnd second secondEnd base c : UInt8) :
    rangesToQuintet first firstEnd second secondEnd base c =
      RangeMap.maskedValue [⟨first, firstEnd, 0⟩, ⟨second, secondEnd, base⟩] c |||
        (RangeMap.maskedMiss [⟨first, firstEnd, 0⟩, ⟨second, secondEnd, base⟩] c &&& 0x20) := by
  simp only [rangesToQuintet, RangeMap.maskedValue, Segment.move, UInt8.add_zero]
  rfl

theorem Charset.of_two_ranges {last first second firstEnd secondEnd : UInt8} (m : RangeMap)
    (hm : m.segments = [⟨0, last, first⟩, ⟨last + 1, 31, second⟩])
    (hinverse : m.inverse.segments = [⟨first, firstEnd, 0⟩, ⟨second, secondEnd, last + 1⟩])
    (hcover : ∀ v : Fin 32, (m.apply (UInt8.ofNat v)).isSome)
    (hpad : m.inverse.apply PAD = none) :
    Charset (quintetToRanges last first second)
      (rangesToQuintet first firstEnd second secondEnd (last + 1)) := by
  apply Charset.of_rangeMap m hcover ?_ ?_ hpad
  · intro v
    rw [quintetToRanges_eq, ← hm, RangeMap.maskedValue_eq]
  · intro c
    rw [rangesToQuintet_eq, ← hinverse, RangeMap.masked_eq]

def upper : RangeMap := ⟨[⟨0, 25, 65⟩, ⟨26, 31, 50⟩], by decide, by decide⟩

def lower : RangeMap := ⟨[⟨0, 25, 97⟩, ⟨26, 31, 50⟩], by decide, by decide⟩

def hex : RangeMap := ⟨[⟨0, 9, 48⟩, ⟨10, 31, 65⟩], by decide, by decide⟩

def hexLower : RangeMap := ⟨[⟨0, 9, 48⟩, ⟨10, 31, 97⟩], by decide, by decide⟩

def crockford : RangeMap where
  segments := [⟨0, 9, 48⟩, ⟨10, 17, 65⟩, ⟨18, 19, 74⟩, ⟨20, 21, 77⟩, ⟨22, 26, 80⟩, ⟨27, 31, 86⟩]
  bounded := by decide
  apart := by decide

theorem quintetToCrockford_eq (v : UInt8) :
    quintetToCrockford v = (crockford.apply v).getD 0 := by
  have hshift (lo base d : UInt8) (h : base - lo = d) : v - lo + base = v + d := by
    rw [← h, UInt8.sub_eq_add_neg, UInt8.sub_eq_add_neg, UInt8.add_assoc, UInt8.add_comm (-lo)]
  rw [← RangeMap.maskedValue_eq]
  simp only [crockford, RangeMap.maskedValue, Segment.move, UInt8.sub_zero,
    hshift 10 65 55 rfl, hshift 18 74 56 rfl, hshift 20 77 57 rfl, hshift 22 80 58 rfl,
    hshift 27 86 59 rfl, quintetToCrockford, UInt8.or_assoc]
  rfl

theorem crockfordToQuintet_eq (c : UInt8) :
    crockfordToQuintet c = (crockford.inverse.apply c).getD 0x20 := by
  have hsegments : crockford.inverse.segments = [⟨48, 57, 0⟩, ⟨65, 72, 10⟩, ⟨74, 75, 18⟩,
      ⟨77, 78, 20⟩, ⟨80, 84, 22⟩, ⟨86, 90, 27⟩] := rfl
  rw [← RangeMap.masked_eq, hsegments]
  simp only [RangeMap.maskedValue, RangeMap.maskedMiss, Segment.move, UInt8.add_zero,
    crockfordToQuintet, UInt8.or_assoc, UInt8.and_assoc]
  rfl

theorem charset_z32 : Charset (fun v => Z32_ENCODE_TABLE.getD v.toNat 0)
    (fun c => Z32_DECODE_TABLE.getD c.toNat 0) where
  quintet_char := forall_octet (by decide +kernel)
  char_quintet := forall_octet (by decide +kernel)
  pad := by decide

theorem charset (alphabet : Alphabet) :
    Charset (quintetToChar · alphabet) (charToQuintet · alphabet) := by
  have hupper : Charset _ _ := Charset.of_two_ranges upper rfl rfl (by decide) rfl
  have hlower : Charset _ _ := Charset.of_two_ranges lower rfl rfl (by decide) rfl
  have hhex : Charset _ _ := Charset.of_two_ranges hex rfl rfl (by decide) rfl
  have hhexLower : Charset _ _ := Charset.of_two_ranges hexLower rfl rfl (by decide) rfl
  cases alphabet with
  | crockford =>
    exact Charset.of_rangeMap crockford (by decide) quintetToCrockford_eq
      crockfordToQuintet_eq rfl
  | rfc4648 => exact hupper
  | rfc4648NoPadding => exact hupper
  | rfc4648Lower => exact hlower
  | rfc4648LowerNoPadding => exact hlower
  | rfc4648Hex => exact hhex
  | rfc4648HexNoPadding => exact hhex
  | rfc4648HexLower => exact hhexLower
  | rfc4648HexLowerNoPadding => exact hhexLower
  | z32 => exact charset_z32

/-! ## Groups -/

def quintets (group : Bytes) : Bytes :=
  let b0 := group.getD 0 0
  let b1 := group.getD 1 0
  let b2 := group.getD 2 0
  let b3 := group.getD 3 0
  let b4 := group.getD 4 0
  [b0 >>> 3, ((b0 &&& 0x07) <<< 2) ||| (b1 >>> 6), (b1 >>> 1) &&& 0x1f,
    ((b1 &&& 0x01) <<< 4) ||| (b2 >>> 4), ((b2 &&& 0x0f) <<< 1) ||| (b3 >>> 7),
    (b3 >>> 2) &&& 0x1f, ((b3 &&& 0x03) <<< 3) ||| (b4 >>> 5), b4 &&& 0x1f]

/-- The octets of eight quintets; quintets that are missing are zero. -/
def octets (group : Bytes) : Bytes :=
  let v0 := group.getD 0 0
  let v1 := group.getD 1 0
  let v2 := group.getD 2 0
  let v3 := group.getD 3 0
  let v4 := group.getD 4 0
  let v5 := group.getD 5 0
  let v6 := group.getD 6 0
  let v7 := group.getD 7 0
  [(v0 <<< 3) ||| (v1 >>> 2), (v1 <<< 6) ||| (v2 <<< 1) ||| (v3 >>> 4),
    (v3 <<< 4) ||| (v4 >>> 1), (v4 <<< 7) ||| (v5 <<< 2) ||| (v6 >>> 3), (v6 <<< 5) ||| v7]

private theorem octet_0 (b0 b1 : UInt8) :
    ((b0 >>> 3) <<< 3) ||| ((((b0 &&& 0x07) <<< 2) ||| (b1 >>> 6)) >>> 2) = b0 := by
  apply octet_ext
  intro i hi
  simp
  interval_cases i <;> simp

private theorem octet_1 (b0 b1 b2 : UInt8) :
    ((((b0 &&& 0x07) <<< 2) ||| (b1 >>> 6)) <<< 6) ||| (((b1 >>> 1) &&& 0x1f) <<< 1) |||
      ((((b1 &&& 0x01) <<< 4) ||| (b2 >>> 4)) >>> 4) = b1 := by
  apply octet_ext
  intro i hi
  simp
  interval_cases i <;> simp

private theorem octet_2 (b1 b2 b3 : UInt8) :
    ((((b1 &&& 0x01) <<< 4) ||| (b2 >>> 4)) <<< 4) |||
      ((((b2 &&& 0x0f) <<< 1) ||| (b3 >>> 7)) >>> 1) = b2 := by
  apply octet_ext
  intro i hi
  simp
  interval_cases i <;> simp

private theorem octet_3 (b2 b3 b4 : UInt8) :
    ((((b2 &&& 0x0f) <<< 1) ||| (b3 >>> 7)) <<< 7) ||| (((b3 >>> 2) &&& 0x1f) <<< 2) |||
      ((((b3 &&& 0x03) <<< 3) ||| (b4 >>> 5)) >>> 3) = b3 := by
  apply octet_ext
  intro i hi
  simp
  interval_cases i <;> simp

private theorem octet_4 (b3 b4 : UInt8) :
    ((((b3 &&& 0x03) <<< 3) ||| (b4 >>> 5)) <<< 5) ||| (b4 &&& 0x1f) = b4 := by
  apply octet_ext
  intro i hi
  simp
  interval_cases i <;> simp

theorem octets_quintets (b0 b1 b2 b3 b4 : UInt8) :
    octets (quintets [b0, b1, b2, b3, b4]) = [b0, b1, b2, b3, b4] := by
  have h0 := octet_0 b0 b1
  have h1 := octet_1 b0 b1 b2
  have h2 := octet_2 b1 b2 b3
  have h3 := octet_3 b2 b3 b4
  have h4 := octet_4 b3 b4
  simp only [octets, quintets, List.getD_cons_zero, List.getD_cons_succ, h0, h1, h2, h3, h4]

private theorem quintet_0 (v0 v1 : UInt8) :
    (((v0 &&& 0x1f) <<< 3) ||| ((v1 &&& 0x1f) >>> 2)) >>> 3 = v0 &&& 0x1f := by
  apply octet_ext
  intro i hi
  simp
  interval_cases i <;> simp

private theorem quintet_1 (v0 v1 v2 v3 : UInt8) :
    (((((v0 &&& 0x1f) <<< 3) ||| ((v1 &&& 0x1f) >>> 2)) &&& 0x07) <<< 2) |||
      ((((v1 &&& 0x1f) <<< 6) ||| ((v2 &&& 0x1f) <<< 1) ||| ((v3 &&& 0x1f) >>> 4)) >>> 6) =
      v1 &&& 0x1f := by
  apply octet_ext
  intro i hi
  simp
  interval_cases i <;> simp

private theorem quintet_2 (v1 v2 v3 : UInt8) :
    ((((v1 &&& 0x1f) <<< 6) ||| ((v2 &&& 0x1f) <<< 1) ||| ((v3 &&& 0x1f) >>> 4)) >>> 1) &&& 0x1f =
      v2 &&& 0x1f := by
  apply octet_ext
  intro i hi
  simp
  interval_cases i <;> simp

private theorem quintet_3 (v1 v2 v3 v4 : UInt8) :
    (((((v1 &&& 0x1f) <<< 6) ||| ((v2 &&& 0x1f) <<< 1) ||| ((v3 &&& 0x1f) >>> 4)) &&& 0x01)
        <<< 4) |||
      ((((v3 &&& 0x1f) <<< 4) ||| ((v4 &&& 0x1f) >>> 1)) >>> 4) = v3 &&& 0x1f := by
  apply octet_ext
  intro i hi
  simp
  interval_cases i <;> simp

private theorem quintet_4 (v3 v4 v5 v6 : UInt8) :
    (((((v3 &&& 0x1f) <<< 4) ||| ((v4 &&& 0x1f) >>> 1)) &&& 0x0f) <<< 1) |||
      ((((v4 &&& 0x1f) <<< 7) ||| ((v5 &&& 0x1f) <<< 2) ||| ((v6 &&& 0x1f) >>> 3)) >>> 7) =
      v4 &&& 0x1f := by
  apply octet_ext
  intro i hi
  simp
  interval_cases i <;> simp

private theorem quintet_5 (v4 v5 v6 : UInt8) :
    ((((v4 &&& 0x1f) <<< 7) ||| ((v5 &&& 0x1f) <<< 2) ||| ((v6 &&& 0x1f) >>> 3)) >>> 2) &&& 0x1f =
      v5 &&& 0x1f := by
  apply octet_ext
  intro i hi
  simp
  interval_cases i <;> simp

private theorem quintet_6 (v4 v5 v6 v7 : UInt8) :
    (((((v4 &&& 0x1f) <<< 7) ||| ((v5 &&& 0x1f) <<< 2) ||| ((v6 &&& 0x1f) >>> 3)) &&& 0x03)
        <<< 3) |||
      ((((v6 &&& 0x1f) <<< 5) ||| (v7 &&& 0x1f)) >>> 5) = v6 &&& 0x1f := by
  apply octet_ext
  intro i hi
  simp
  interval_cases i <;> simp

private theorem quintet_7 (v6 v7 : UInt8) :
    (((v6 &&& 0x1f) <<< 5) ||| (v7 &&& 0x1f)) &&& 0x1f = v7 &&& 0x1f := by
  apply octet_ext
  intro i hi
  simp
  interval_cases i <;> simp

theorem and_mask_of_lt {v : UInt8} (hv : v < 32) : v &&& 0x1f = v := by
  rw [← UInt8.toNat_inj, UInt8.toNat_and]
  have hlt := UInt8.lt_iff_toNat_lt.mp hv
  have hmod : v.toNat &&& 31 = v.toNat % 32 := Nat.and_two_pow_sub_one_eq_mod _ 5
  exact hmod.trans (Nat.mod_eq_of_lt hlt)

theorem quintets_octets {v0 v1 v2 v3 v4 v5 v6 v7 : UInt8}
    (h : ∀ v ∈ [v0, v1, v2, v3, v4, v5, v6, v7], v < 32) :
    quintets (octets [v0, v1, v2, v3, v4, v5, v6, v7]) = [v0, v1, v2, v3, v4, v5, v6, v7] := by
  have hmask (v : UInt8) (hv : v ∈ [v0, v1, v2, v3, v4, v5, v6, v7]) : v &&& 0x1f = v :=
    and_mask_of_lt (h v hv)
  have h0 := quintet_0 v0 v1
  have h1 := quintet_1 v0 v1 v2 v3
  have h2 := quintet_2 v1 v2 v3
  have h3 := quintet_3 v1 v2 v3 v4
  have h4 := quintet_4 v3 v4 v5 v6
  have h5 := quintet_5 v4 v5 v6
  have h6 := quintet_6 v4 v5 v6 v7
  have h7 := quintet_7 v6 v7
  simp only [hmask v0 (by simp), hmask v1 (by simp), hmask v2 (by simp), hmask v3 (by simp),
    hmask v4 (by simp), hmask v5 (by simp), hmask v6 (by simp), hmask v7 (by simp)]
    at h0 h1 h2 h3 h4 h5 h6 h7
  simp only [quintets, octets, List.getD_cons_zero, List.getD_cons_succ, h0, h1, h2, h3, h4, h5,
    h6, h7]

/-! ## Short groups -/

def charactersOf (n : Nat) : Nat := (8 * n + 4) / 5

def octetsOf (k : Nat) : Nat := 5 * k / 8

theorem charactersOf_le {n : Nat} (h : n ≤ 5) : charactersOf n ≤ 8 := by
  unfold charactersOf
  omega

theorem octetsOf_charactersOf (n : Nat) : octetsOf (charactersOf n) = n := by
  unfold octetsOf charactersOf
  omega

theorem map_getD_range {xs : Bytes} {n : Nat} (h : xs.length ≤ n) :
    (List.range n).map (xs.getD · 0) = xs ++ List.replicate (n - xs.length) 0 := by
  apply List.ext_getElem
  · simp
    omega
  · intro i hi hi'
    rw [List.getElem_map, List.getElem_range, List.getElem_append]
    split
    · next hlt => exact List.getD_eq_getElem _ _ hlt
    · next hge => rw [List.getElem_replicate, List.getD_eq_default _ _ (by omega)]

theorem quintets_congr {g g' : Bytes} (h : ∀ j, g.getD j 0 = g'.getD j 0) :
    quintets g = quintets g' := by
  simp only [quintets, h]

theorem octets_congr {g g' : Bytes} (h : ∀ j, g.getD j 0 = g'.getD j 0) :
    octets g = octets g' := by
  simp only [octets, h]

theorem octets_quintets_group {g : Bytes} (h : g.length ≤ 5) :
    octets (quintets g) = g ++ List.replicate (5 - g.length) 0 :=
  (octets_quintets _ _ _ _ _).trans (map_getD_range h)

theorem quintets_octets_group {g : Bytes} (hlength : g.length ≤ 8) (h : ∀ v ∈ g, v < 32) :
    quintets (octets g) = g ++ List.replicate (8 - g.length) 0 := by
  rw [← map_getD_range hlength]
  apply quintets_octets
  have hcell (j : Nat) : g.getD j 0 < 32 := by
    rcases Nat.lt_or_ge j g.length with hj | hj
    · rw [List.getD_eq_getElem _ _ hj]
      exact h _ (List.getElem_mem hj)
    · rw [List.getD_eq_default _ _ hj]
      decide
  intro v hv
  simp only [List.mem_cons, List.not_mem_nil, or_false] at hv
  rcases hv with rfl | rfl | rfl | rfl | rfl | rfl | rfl | rfl <;> exact hcell _

theorem quintets_drop_zero {g : Bytes} (h : g.length ≤ 5) :
    ∀ v ∈ (quintets g).drop (charactersOf g.length), v = 0 := by
  match g, h with
  | [], _ => simp [quintets, charactersOf]
  | [b0], _ => simp [quintets, charactersOf]
  | [b0, b1], _ => simp [quintets, charactersOf]
  | [b0, b1, b2], _ => simp [quintets, charactersOf]
  | [b0, b1, b2, b3], _ => simp [quintets, charactersOf]
  | [b0, b1, b2, b3, b4], _ => simp [quintets, charactersOf]

theorem quintets_lt (g : Bytes) : ∀ v ∈ quintets g, v < 32 := by
  have hlt (x : UInt8) (h : x &&& 0x1f = x) : x < 32 := by
    rw [UInt8.lt_iff_toNat_lt, ← h, UInt8.toNat_and]
    have hmod : x.toNat &&& 31 = x.toNat % 32 := Nat.and_two_pow_sub_one_eq_mod _ 5
    exact lt_of_eq_of_lt hmod (Nat.mod_lt _ (by omega))
  intro v hv
  apply hlt
  simp only [quintets, List.mem_cons, List.not_mem_nil, or_false] at hv
  rcases hv with rfl | rfl | rfl | rfl | rfl | rfl | rfl | rfl
  all_goals
    apply octet_ext
    intro i hi
    interval_cases i <;> simp

section Inverses

variable (alphabet : Alphabet)

def encodeGroup (group : Bytes) : Bytes :=
  ((quintets group).take (charactersOf group.length)).map (quintetToChar · alphabet)

def values (text : Bytes) : Bytes := text.map (charToQuintet · alphabet)

def decodeGroup (text : Bytes) : Option Bytes :=
  if (∀ v ∈ values alphabet text, v < 32) ∧
      charactersOf (octetsOf text.length) = text.length ∧
      ∀ b ∈ (octets (values alphabet text)).drop (octetsOf text.length), b = 0 then
    some ((octets (values alphabet text)).take (octetsOf text.length))
  else none

def encodeText : Bytes → Bytes
  | b0 :: b1 :: b2 :: b3 :: b4 :: rest =>
    encodeGroup alphabet [b0, b1, b2, b3, b4] ++ encodeText rest
  | tail => encodeGroup alphabet tail

def decodeText : Bytes → Option Bytes
  | c0 :: c1 :: c2 :: c3 :: c4 :: c5 :: c6 :: c7 :: rest => do
      let front ← decodeGroup alphabet [c0, c1, c2, c3, c4, c5, c6, c7]
      let back ← decodeText rest
      some (front ++ back)
  | tail => decodeGroup alphabet tail

theorem encodeGroup_length {g : Bytes} (h : g.length ≤ 5) :
    (encodeGroup alphabet g).length = charactersOf g.length := by
  have hle := charactersOf_le h
  have hquintets : (quintets g).length = 8 := rfl
  rw [encodeGroup, List.length_map, List.length_take, hquintets]
  omega

theorem encodeGroup_full (b0 b1 b2 b3 b4 : UInt8) :
    (encodeGroup alphabet [b0, b1, b2, b3, b4]).length = 8 := by
  rw [encodeGroup_length alphabet (by simp)]
  simp [charactersOf]

theorem values_encodeGroup (g : Bytes) :
    values alphabet (encodeGroup alphabet g) = (quintets g).take (charactersOf g.length) := by
  rw [values, encodeGroup, List.map_map]
  conv_rhs => rw [← List.map_id (List.take _ _)]
  apply List.map_congr_left
  intro v hv
  exact (charset alphabet).quintet_char v (quintets_lt g v (List.mem_of_mem_take hv))

theorem decodeGroup_encodeGroup {g : Bytes} (h : g.length ≤ 5) :
    decodeGroup alphabet (encodeGroup alphabet g) = some g := by
  have hoctets : octets ((quintets g).take (charactersOf g.length)) =
      g ++ List.replicate (5 - g.length) 0 := by
    rw [← octets_quintets_group h]
    exact octets_congr (getD_take_of_zero (quintets_drop_zero h))
  rw [decodeGroup, values_encodeGroup, encodeGroup_length alphabet h, octetsOf_charactersOf,
    hoctets, List.take_left, List.drop_left]
  apply if_pos
  refine ⟨?_, rfl, ?_⟩
  · intro v hv
    exact quintets_lt g v (List.mem_of_mem_take hv)
  · intro b hb
    exact List.eq_of_mem_replicate hb

theorem encodeGroup_of_decodeGroup {text g : Bytes} (hlength : text.length ≤ 8)
    (h : decodeGroup alphabet text = some g) :
    encodeGroup alphabet g = text ∧ g.length = octetsOf text.length := by
  unfold decodeGroup at h
  split at h
  · next hvalid =>
    obtain ⟨hsmall, hcount, hzero⟩ := hvalid
    have hvalues : (values alphabet text).length = text.length := List.length_map ..
    have hsize : (octets (values alphabet text)).length = 5 := rfl
    obtain rfl := Option.some.inj h
    have hgroup : ((octets (values alphabet text)).take (octetsOf text.length)).length =
        octetsOf text.length := by
      rw [List.length_take, hsize]
      unfold octetsOf
      omega
    refine ⟨?_, hgroup⟩
    rw [encodeGroup, hgroup, hcount, quintets_congr (getD_take_of_zero hzero),
      quintets_octets_group (by omega) hsmall, ← hvalues, List.take_left, values, List.map_map]
    conv_rhs => rw [← List.map_id text]
    apply List.map_congr_left
    intro c hc
    exact (charset alphabet).char_quintet c (hsmall _ (List.mem_map_of_mem hc))
  · cases h

/-! ## Texts -/

theorem encodeText_short {tail : Bytes} (h : tail.length < 5) :
    encodeText alphabet tail = encodeGroup alphabet tail := by
  unfold encodeText
  split
  · simp at h
    omega
  · rfl

theorem decodeText_short {tail : Bytes} (h : tail.length < 8) :
    decodeText alphabet tail = decodeGroup alphabet tail := by
  unfold decodeText
  split
  · simp at h
    omega
  · rfl

theorem length_lt_five {tail : Bytes}
    (h : ∀ b0 b1 b2 b3 b4 rest, tail = b0 :: b1 :: b2 :: b3 :: b4 :: rest → False) :
    tail.length < 5 := by
  match tail with
  | [] | [_] | [_, _] | [_, _, _] | [_, _, _, _] => simp
  | b0 :: b1 :: b2 :: b3 :: b4 :: rest => exact (h b0 b1 b2 b3 b4 rest rfl).elim

theorem length_lt_eight {tail : Bytes}
    (h : ∀ c0 c1 c2 c3 c4 c5 c6 c7 rest,
      tail = c0 :: c1 :: c2 :: c3 :: c4 :: c5 :: c6 :: c7 :: rest → False) :
    tail.length < 8 := by
  match tail with
  | [] | [_] | [_, _] | [_, _, _] | [_, _, _, _] | [_, _, _, _, _] | [_, _, _, _, _, _]
  | [_, _, _, _, _, _, _] => simp
  | c0 :: c1 :: c2 :: c3 :: c4 :: c5 :: c6 :: c7 :: rest =>
    exact (h c0 c1 c2 c3 c4 c5 c6 c7 rest rfl).elim

theorem decodeText_append {g : Bytes} (hg : g.length = 8) (rest : Bytes) :
    decodeText alphabet (g ++ rest) = (do
      let front ← decodeGroup alphabet g
      let back ← decodeText alphabet rest
      some (front ++ back)) := by
  match g with
  | [c0, c1, c2, c3, c4, c5, c6, c7] => rfl

@[simp] theorem decodeText_encodeText (data : Bytes) :
    decodeText alphabet (encodeText alphabet data) = some data := by
  induction data using encodeText.induct with
  | case1 b0 b1 b2 b3 b4 rest ih =>
    have hgroup := decodeGroup_encodeGroup alphabet (g := [b0, b1, b2, b3, b4]) (by simp)
    have hlength := encodeGroup_full alphabet b0 b1 b2 b3 b4
    rw [encodeText, decodeText_append _ hlength, hgroup, ih]
    rfl
  | case2 tail h =>
    have hshort := length_lt_five h
    rw [encodeText_short alphabet hshort, decodeText_short, decodeGroup_encodeGroup]
    · omega
    · rw [encodeGroup_length alphabet (by omega)]
      unfold charactersOf
      omega

theorem encodeText_of_decodeText {content data : Bytes}
    (h : decodeText alphabet content = some data) : encodeText alphabet data = content := by
  induction content using decodeText.induct generalizing data with
  | case1 c0 c1 c2 c3 c4 c5 c6 c7 rest ih =>
    simp only [decodeText, Option.bind_eq_bind, Option.bind_eq_some_iff] at h
    obtain ⟨front, hfront, back, hback, heq⟩ := h
    obtain rfl := Option.some.inj heq
    obtain ⟨hgroup, hlength⟩ := encodeGroup_of_decodeGroup alphabet (by simp) hfront
    have hfive : front.length = 5 := hlength.trans (by simp [octetsOf])
    match front, hfive with
    | [b0, b1, b2, b3, b4], _ =>
      change encodeGroup alphabet [b0, b1, b2, b3, b4] ++ encodeText alphabet back = _
      rw [hgroup, ih hback]
      rfl
  | case2 tail hshape =>
    have hshort := length_lt_eight hshape
    rw [decodeText_short alphabet hshort] at h
    obtain ⟨hgroup, hlength⟩ := encodeGroup_of_decodeGroup alphabet (by omega) h
    rw [encodeText_short, hgroup]
    rw [hlength]
    unfold octetsOf
    omega

theorem encodeText_length (data : Bytes) :
    (encodeText alphabet data).length = charactersOf data.length := by
  induction data using encodeText.induct with
  | case1 b0 b1 b2 b3 b4 rest ih =>
    have hgroup := encodeGroup_full alphabet b0 b1 b2 b3 b4
    rw [encodeText, List.length_append, ih, hgroup]
    simp only [charactersOf, List.length_cons]
    omega
  | case2 tail h =>
    have hshort := length_lt_five h
    rw [encodeText_short alphabet hshort, encodeGroup_length alphabet (by omega)]

theorem encodeText_ne_pad (data : Bytes) : ∀ c ∈ encodeText alphabet data, c ≠ PAD := by
  have hgroup (g : Bytes) : ∀ c ∈ encodeGroup alphabet g, c ≠ PAD := by
    intro c hc
    obtain ⟨v, hv, rfl⟩ := List.mem_map.mp hc
    intro hpad
    have hlt := quintets_lt g v (List.mem_of_mem_take hv)
    apply (charset alphabet).pad
    rw [← hpad, (charset alphabet).quintet_char v hlt]
    exact hlt
  induction data using encodeText.induct with
  | case1 b0 b1 b2 b3 b4 rest ih =>
    intro c hc
    rw [encodeText, List.mem_append] at hc
    rcases hc with hc | hc
    · exact hgroup _ c hc
    · exact ih c hc
  | case2 tail h =>
    rw [encodeText_short alphabet (length_lt_five h)]
    exact hgroup tail

end Inverses

end Stdx.Base32
