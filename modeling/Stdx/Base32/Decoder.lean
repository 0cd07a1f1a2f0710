import Stdx.Base32.Refinement

/-!
# The branch-free decoder computes the text codec

The error bits stay below 32 exactly while every character was one of the alphabet.
-/

namespace Stdx.Base32

open Stdx.Foundation

section Groups

variable {alphabet : Alphabet}

theorem or_lt_32 (x y : UInt8) : x ||| y < 32 ↔ x < 32 ∧ y < 32 := by
  simp only [UInt8.lt_iff_toNat_lt, UInt8.toNat_or]
  constructor
  · intro h
    exact ⟨lt_of_le_of_lt Nat.left_le_or h, lt_of_le_of_lt Nat.right_le_or h⟩
  · rintro ⟨hx, hy⟩
    exact Nat.or_lt_two_pow (n := 5) hx hy

theorem shift_eq_zero_iff (v : Nat) {n : Nat} (hn : n ≤ 8) :
    v <<< (8 - n) % 2 ^ 8 = 0 ↔ v &&& (2 ^ n - 1) = 0 := by
  have hpow : 2 ^ 8 = 2 ^ n * 2 ^ (8 - n) := by
    rw [← pow_add, Nat.add_sub_cancel' hn]
  rw [Nat.shiftLeft_eq, hpow, Nat.mul_mod_mul_right, Nat.and_two_pow_sub_one_eq_mod]
  exact mul_eq_zero_iff_right (by positivity)

theorem octet_shift_eq_zero {v s m : UInt8} {n : Nat} (hn : n ≤ 8) (hs : s.toNat % 8 = 8 - n)
    (hm : m.toNat = 2 ^ n - 1) : v <<< s = 0 ↔ v &&& m = 0 := by
  rw [← UInt8.toNat_inj, ← UInt8.toNat_inj, UInt8.toNat_shiftLeft, UInt8.toNat_and, hs, hm]
  exact shift_eq_zero_iff v.toNat hn

theorem trailing_lt_32 {v maxPad : UInt8} (hmask : 1 ≤ (1 : UInt8) <<< maxPad - 1)
    (hhi : (1 : UInt8) <<< maxPad - 1 < 128) :
    checkTrailingBits v maxPad < 32 ↔ v &&& ((1 : UInt8) <<< maxPad - 1) = 0 := by
  have hle : v &&& ((1 : UInt8) <<< maxPad - 1) ≤ (1 : UInt8) <<< maxPad - 1 := by
    rw [UInt8.le_iff_toNat_le, UInt8.toNat_and]
    exact Nat.and_le_right
  simp only [checkTrailingBits, notInRange, rangeMask_eq hmask hhi]
  generalize v &&& ((1 : UInt8) <<< maxPad - 1) = bits at *
  by_cases hbits : bits = 0
  · have hout : ¬(1 ≤ bits ∧ bits ≤ (1 : UInt8) <<< maxPad - 1) := by
      rintro ⟨hone, -⟩
      rw [hbits] at hone
      exact absurd hone (by decide)
    rw [if_neg hout, hbits]
    decide
  · have hone : 1 ≤ bits := by
      rw [UInt8.le_iff_toNat_le]
      have hne : bits.toNat ≠ 0 := fun heq => hbits (UInt8.toNat_inj.mp heq)
      have h1 : (1 : UInt8).toNat = 1 := rfl
      omega
    rw [if_pos ⟨hone, hle⟩]
    simp only [hbits, iff_false]
    decide

theorem decodeGroup_eq (c0 c1 c2 c3 c4 c5 c6 c7 : UInt8) :
    decodeGroup alphabet [c0, c1, c2, c3, c4, c5, c6, c7] =
      if charToQuintet c0 alphabet ||| charToQuintet c1 alphabet ||| charToQuintet c2 alphabet |||
          charToQuintet c3 alphabet ||| charToQuintet c4 alphabet ||| charToQuintet c5 alphabet |||
          charToQuintet c6 alphabet ||| charToQuintet c7 alphabet < 32
      then some (octets (values alphabet [c0, c1, c2, c3, c4, c5, c6, c7])) else none := by
  have hcount : octetsOf 8 = 5 ∧ charactersOf 5 = 8 := by simp [octetsOf, charactersOf]
  simp only [decodeGroup, values, List.map_cons, List.map_nil, List.length_cons, List.length_nil,
    List.forall_mem_cons, Nat.zero_add, Nat.reduceAdd, hcount.1, hcount.2, or_lt_32]
  congr 1
  simp [octets, and_assoc]

theorem decodeGroup_two (c0 c1 : UInt8) :
    let v0 := charToQuintet c0 alphabet
    let v1 := charToQuintet c1 alphabet
    decodeGroup alphabet [c0, c1] =
      if v0 ||| v1 < 32 ∧ v1 &&& 3 = 0 then some [(v0 <<< 3) ||| (v1 >>> 2)] else none := by
  have hshift (v : UInt8) : v <<< 6 = 0 ↔ v &&& 3 = 0 :=
    octet_shift_eq_zero (n := 2) (by omega) rfl rfl
  have hcount : octetsOf 2 = 1 ∧ charactersOf 1 = 2 := by simp [octetsOf, charactersOf]
  simp only [decodeGroup, values, List.map_cons, List.map_nil, List.length_cons, List.length_nil,
    List.forall_mem_cons, Nat.zero_add, Nat.reduceAdd, hcount.1, hcount.2, or_lt_32, ← hshift]
  simp [octets, and_assoc]

theorem decodeGroup_four (c0 c1 c2 c3 : UInt8) :
    let v0 := charToQuintet c0 alphabet
    let v1 := charToQuintet c1 alphabet
    let v2 := charToQuintet c2 alphabet
    let v3 := charToQuintet c3 alphabet
    decodeGroup alphabet [c0, c1, c2, c3] =
      if v0 ||| v1 ||| v2 ||| v3 < 32 ∧ v3 &&& 15 = 0 then
        some [(v0 <<< 3) ||| (v1 >>> 2), (v1 <<< 6) ||| (v2 <<< 1) ||| (v3 >>> 4)]
      else none := by
  have hshift (v : UInt8) : v <<< 4 = 0 ↔ v &&& 15 = 0 :=
    octet_shift_eq_zero (n := 4) (by omega) rfl rfl
  have hcount : octetsOf 4 = 2 ∧ charactersOf 2 = 4 := by simp [octetsOf, charactersOf]
  simp only [decodeGroup, values, List.map_cons, List.map_nil, List.length_cons, List.length_nil,
    List.forall_mem_cons, Nat.zero_add, Nat.reduceAdd, hcount.1, hcount.2, or_lt_32, ← hshift]
  simp [octets, and_assoc]

theorem decodeGroup_five (c0 c1 c2 c3 c4 : UInt8) :
    let v0 := charToQuintet c0 alphabet
    let v1 := charToQuintet c1 alphabet
    let v2 := charToQuintet c2 alphabet
    let v3 := charToQuintet c3 alphabet
    let v4 := charToQuintet c4 alphabet
    decodeGroup alphabet [c0, c1, c2, c3, c4] =
      if v0 ||| v1 ||| v2 ||| v3 ||| v4 < 32 ∧ v4 &&& 1 = 0 then
        some [(v0 <<< 3) ||| (v1 >>> 2), (v1 <<< 6) ||| (v2 <<< 1) ||| (v3 >>> 4),
          (v3 <<< 4) ||| (v4 >>> 1)]
      else none := by
  have hshift (v : UInt8) : v <<< 7 = 0 ↔ v &&& 1 = 0 :=
    octet_shift_eq_zero (n := 1) (by omega) rfl rfl
  have hcount : octetsOf 5 = 3 ∧ charactersOf 3 = 5 := by simp [octetsOf, charactersOf]
  simp only [decodeGroup, values, List.map_cons, List.map_nil, List.length_cons, List.length_nil,
    List.forall_mem_cons, Nat.zero_add, Nat.reduceAdd, hcount.1, hcount.2, or_lt_32, ← hshift]
  simp [octets, and_assoc]

theorem decodeGroup_seven (c0 c1 c2 c3 c4 c5 c6 : UInt8) :
    let v0 := charToQuintet c0 alphabet
    let v1 := charToQuintet c1 alphabet
    let v2 := charToQuintet c2 alphabet
    let v3 := charToQuintet c3 alphabet
    let v4 := charToQuintet c4 alphabet
    let v5 := charToQuintet c5 alphabet
    let v6 := charToQuintet c6 alphabet
    decodeGroup alphabet [c0, c1, c2, c3, c4, c5, c6] =
      if v0 ||| v1 ||| v2 ||| v3 ||| v4 ||| v5 ||| v6 < 32 ∧ v6 &&& 7 = 0 then
        some [(v0 <<< 3) ||| (v1 >>> 2), (v1 <<< 6) ||| (v2 <<< 1) ||| (v3 >>> 4),
          (v3 <<< 4) ||| (v4 >>> 1), (v4 <<< 7) ||| (v5 <<< 2) ||| (v6 >>> 3)]
      else none := by
  have hshift (v : UInt8) : v <<< 5 = 0 ↔ v &&& 7 = 0 :=
    octet_shift_eq_zero (n := 3) (by omega) rfl rfl
  have hcount : octetsOf 7 = 4 ∧ charactersOf 4 = 7 := by simp [octetsOf, charactersOf]
  simp only [decodeGroup, values, List.map_cons, List.map_nil, List.length_cons, List.length_nil,
    List.forall_mem_cons, Nat.zero_add, Nat.reduceAdd, hcount.1, hcount.2, or_lt_32, ← hshift]
  simp [octets, and_assoc]

end Groups

/-! ## The loops -/

/-- The input agrees with its content up to the padding. -/
structure ContentOf (data content : Bytes) : Prop where
  le : content.length ≤ data.length
  getD_eq : ∀ j, j < content.length → data.getD j 0 = content.getD j 0

/-- Below 32 the error bits say that all characters so far were valid. -/
structure DecodeInv (alphabet : Alphabet) (content : Bytes) (size : Nat) (s : DecodeState) :
    Prop where
  le : s.i ≤ content.length
  aligned : s.i % 8 = 0
  position : s.o = s.i / 8 * 5
  length_eq : s.output.length = size
  text_eq : decodeText alphabet content =
    if s.err < 32 then (decodeText alphabet (content.drop s.i)).map (s.output.take s.o ++ ·)
    else none

section Loops

variable {alphabet : Alphabet} {content data : Bytes} {size : Nat} {s : DecodeState}

theorem decode1quad_congr (hdata : ContentOf data content) (hi : s.i + 8 ≤ content.length) :
    decode1quad alphabet data s = decode1quad alphabet content s := by
  have hcell (j : Nat) (hj : j < 8) : data.getD (s.i + j) 0 = content.getD (s.i + j) 0 :=
    hdata.getD_eq _ (by omega)
  have h0 := hcell 0 (by omega)
  rw [Nat.add_zero] at h0
  simp only [decode1quad, h0, hcell 1 (by omega), hcell 2 (by omega), hcell 3 (by omega),
    hcell 4 (by omega), hcell 5 (by omega), hcell 6 (by omega), hcell 7 (by omega)]

variable (alphabet content s) in
theorem decode1quad_group :
    ∃ (err : UInt8) (octets : Bytes),
      decode1quad alphabet content s =
        ⟨s.i + 8, s.o + 5, s.err ||| err, storeAt s.output s.o octets⟩ ∧ octets.length = 5 ∧
      decodeGroup alphabet ((List.range 8).map fun j => content.getD (s.i + j) 0) =
        if err < 32 then some octets else none :=
  ⟨_, _, rfl, rfl, decodeGroup_eq _ _ _ _ _ _ _ _⟩

theorem DecodeInv.quad (hdata : ContentOf data content) (hroom : content.length / 8 * 5 ≤ size)
    (h : DecodeInv alphabet content size s) (hi : s.i + 8 ≤ content.length) :
    DecodeInv alphabet content size (decode1quad alphabet data s) := by
  have haligned := h.aligned
  have hposition := h.position
  have hlength := h.length_eq
  obtain ⟨err, group, hstep, hgroup, hdecode⟩ := decode1quad_group alphabet content s
  have htake := @storeAt_take s.output s.o group (by omega)
  rw [hgroup] at htake
  rw [decode1quad_congr hdata hi, hstep]
  refine ⟨hi, by simp only; omega, by simp only; omega, ?_, ?_⟩
  · exact (storeAt_length ..).trans hlength
  · rw [h.text_eq, drop_eq_append hi, decodeText_append alphabet (by simp), hdecode]
    simp only [htake, or_lt_32 s.err]
    by_cases herr : s.err < 32
    · by_cases hvalid : err < 32
      · simp only [herr, hvalid, and_self, if_true, Option.bind_eq_bind, Option.bind_some]
        cases decodeText alphabet (content.drop (s.i + 8)) with
        | none => rfl
        | some rest => simp
      · simp [herr, hvalid]
    · simp [herr]

theorem DecodeInv.quads (hdata : ContentOf data content) (hroom : content.length / 8 * 5 ≤ size)
    (h : DecodeInv alphabet content size s) (hi : s.i + 64 ≤ content.length) :
    DecodeInv alphabet content size (decode8quads alphabet data s) ∧
      (decode8quads alphabet data s).i = s.i + 64 := by
  have hrule := forRange_rule (l := 0) (n := 8) (f := fun _ => decode1quad alphabet data)
    (I := fun k t => DecodeInv alphabet content size t ∧ t.i = s.i + k * 8)
    (fun k t _ hk hinv => ⟨hinv.1.quad hdata hroom (by omega), by
      change t.i + 8 = _
      omega⟩) (s := s) ⟨h, by omega⟩
  exact ⟨hrule.1, hrule.2.trans (by omega)⟩

theorem DecodeInv.loops (hdata : ContentOf data content) (hroom : content.length / 8 * 5 ≤ size)
    (h : DecodeInv alphabet content size s) :
    let t := whileLoop (fun s => decide (s.i + 64 ≤ content.length)) (decode8quads alphabet data)
      (content.length + 1) s
    let t := whileLoop (fun s => decide (s.i + 8 ≤ content.length)) (decode1quad alphabet data)
      (content.length + 1) t
    DecodeInv alphabet content size t ∧ content.length < t.i + 8 := by
  obtain ⟨hfirst, -⟩ := whileLoop_rule (c := fun s => decide (s.i + 64 ≤ content.length))
    (f := decode8quads alphabet data) (I := DecodeInv alphabet content size)
    (fun s => content.length - s.i)
    (fun s hinv hcond => by
      have hi := of_decide_eq_true hcond
      obtain ⟨hnext, hindex⟩ := hinv.quads hdata hroom hi
      exact ⟨hnext, by omega⟩)
    (k := content.length + 1) h (by omega)
  obtain ⟨hsecond, hexit⟩ := whileLoop_rule (c := fun s => decide (s.i + 8 ≤ content.length))
    (f := decode1quad alphabet data) (I := DecodeInv alphabet content size)
    (fun s => content.length - s.i)
    (fun s hinv hcond => by
      have hi := of_decide_eq_true hcond
      have hindex : (decode1quad alphabet data s).i = s.i + 8 := rfl
      exact ⟨hinv.quad hdata hroom hi, by omega⟩)
    (k := content.length + 1) hfirst (by omega)
  exact ⟨hsecond, Nat.lt_of_not_le (of_decide_eq_false hexit)⟩

/-- What the tail stores, when its error bits say that it is valid. -/
theorem DecodeInv.finish {group : Bytes} {err : UInt8} {count : Nat}
    (h : DecodeInv alphabet content size s) (hexit : content.length < s.i + 8)
    (hcount : s.i + count = content.length) (hroom : octetsOf content.length ≤ size)
    (hlength : group.length = octetsOf count)
    (hgroup : decodeGroup alphabet ((List.range count).map fun j => content.getD (s.i + j) 0) =
      if err < 32 then some group else none) :
    (storeAt s.output s.o group).length = size ∧
      decodeText alphabet content =
        if s.err ||| err < 32 then
          some ((storeAt s.output s.o group).take (octetsOf content.length))
        else none := by
  have haligned := h.aligned
  have hposition := h.position
  have hsize := h.length_eq
  have hoctets : octetsOf content.length = s.o + group.length := by
    rw [hlength, ← hcount]
    unfold octetsOf
    omega
  have htake := @storeAt_take s.output s.o group (by omega)
  refine ⟨(storeAt_length ..).trans hsize, ?_⟩
  rw [h.text_eq, decodeText_short alphabet (by rw [List.length_drop]; omega),
    drop_eq_map_getD hcount, hgroup, hoctets, htake]
  simp only [or_lt_32 s.err]
  by_cases herr : s.err < 32
  · by_cases hvalid : err < 32 <;> simp [herr, hvalid]
  · simp [herr]

theorem decodeTail_spec (hdata : ContentOf data content) (h : DecodeInv alphabet content size s)
    (hexit : content.length < s.i + 8) (hroom : octetsOf content.length ≤ size)
    (heven : charactersOf (octetsOf content.length) = content.length) :
    ∃ err output, decodeTail alphabet data content.length s = .ok (err, output) ∧
      output.length = size ∧
      decodeText alphabet content =
        if err < 32 then some (output.take (octetsOf content.length)) else none := by
  have hle := h.le
  have haligned := h.aligned
  have hcell (j : Nat) (hj : s.i + j < content.length) :
      data.getD (s.i + j) 0 = content.getD (s.i + j) 0 := hdata.getD_eq _ hj
  have hfirst (hlt : s.i < content.length) : data.getD s.i 0 = content.getD s.i 0 :=
    hdata.getD_eq _ hlt
  have hremaining : content.length - s.i = 0 ∨ content.length - s.i = 2 ∨
      content.length - s.i = 4 ∨ content.length - s.i = 5 ∨ content.length - s.i = 7 := by
    unfold charactersOf octetsOf at heven
    omega
  -- the trailing bits of each tail
  have hbits2 (v : UInt8) : checkTrailingBits v 2 < 32 ↔ v &&& 3 = 0 :=
    trailing_lt_32 (by decide) (by decide)
  have hbits4 (v : UInt8) : checkTrailingBits v 4 < 32 ↔ v &&& 15 = 0 :=
    trailing_lt_32 (by decide) (by decide)
  have hbits1 (v : UInt8) : checkTrailingBits v 1 < 32 ↔ v &&& 1 = 0 :=
    trailing_lt_32 (by decide) (by decide)
  have hbits3 (v : UInt8) : checkTrailingBits v 3 < 32 ↔ v &&& 7 = 0 :=
    trailing_lt_32 (by decide) (by decide)
  rcases hremaining with hr | hr | hr | hr | hr
  · have hdone : ¬s.i < content.length := by omega
    obtain ⟨hlength, htext⟩ := @DecodeInv.finish _ _ _ _ [] 0 0 h hexit (by omega) hroom rfl
      (by simp [decodeGroup, values, octets, octetsOf, charactersOf])
    refine ⟨s.err, s.output, by simp [decodeTail, hdone], hlength, ?_⟩
    rwa [UInt8.or_zero] at htext
  · have hmore : s.i < content.length := by omega
    have hgroup := @decodeGroup_two alphabet (content.getD s.i 0) (content.getD (s.i + 1) 0)
    simp only [← hbits2, ← or_lt_32] at hgroup
    obtain ⟨hlength, htext⟩ := @DecodeInv.finish _ _ _ _ _ _ 2 h hexit (by omega) hroom
      (by simp [octetsOf]) hgroup
    refine ⟨_, _, ?_, hlength, htext⟩
    simp only [decodeTail, hmore, if_true, hr, hfirst hmore, hcell 1 (by omega),
      UInt8.or_assoc]
  · have hmore : s.i < content.length := by omega
    have hgroup := @decodeGroup_four alphabet (content.getD s.i 0) (content.getD (s.i + 1) 0)
      (content.getD (s.i + 2) 0) (content.getD (s.i + 3) 0)
    simp only [← hbits4, ← or_lt_32] at hgroup
    obtain ⟨hlength, htext⟩ := @DecodeInv.finish _ _ _ _ _ _ 4 h hexit (by omega) hroom
      (by simp [octetsOf]) hgroup
    refine ⟨_, _, ?_, hlength, htext⟩
    simp only [decodeTail, hmore, if_true, hr, hfirst hmore, hcell 1 (by omega), hcell 2
      (by omega), hcell 3 (by omega), UInt8.or_assoc]
  · have hmore : s.i < content.length := by omega
    have hgroup := @decodeGroup_five alphabet (content.getD s.i 0) (content.getD (s.i + 1) 0)
      (content.getD (s.i + 2) 0) (content.getD (s.i + 3) 0) (content.getD (s.i + 4) 0)
    simp only [← hbits1, ← or_lt_32] at hgroup
    obtain ⟨hlength, htext⟩ := @DecodeInv.finish _ _ _ _ _ _ 5 h hexit (by omega) hroom
      (by simp [octetsOf]) hgroup
    refine ⟨_, _, ?_, hlength, htext⟩
    simp only [decodeTail, hmore, if_true, hr, hfirst hmore, hcell 1 (by omega), hcell 2
      (by omega), hcell 3 (by omega), hcell 4 (by omega), UInt8.or_assoc]
  · have hmore : s.i < content.length := by omega
    have hgroup := @decodeGroup_seven alphabet (content.getD s.i 0) (content.getD (s.i + 1) 0)
      (content.getD (s.i + 2) 0) (content.getD (s.i + 3) 0) (content.getD (s.i + 4) 0)
      (content.getD (s.i + 5) 0) (content.getD (s.i + 6) 0)
    simp only [← hbits3, ← or_lt_32] at hgroup
    obtain ⟨hlength, htext⟩ := @DecodeInv.finish _ _ _ _ _ _ 7 h hexit (by omega) hroom
      (by simp [octetsOf]) hgroup
    refine ⟨_, _, ?_, hlength, htext⟩
    simp only [decodeTail, hmore, if_true, hr, hfirst hmore, hcell 1 (by omega), hcell 2
      (by omega), hcell 3 (by omega), hcell 4 (by omega), hcell 5 (by omega), hcell 6
      (by omega), UInt8.or_assoc]

end Loops

end Stdx.Base32
