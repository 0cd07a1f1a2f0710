import Mathlib.Data.List.GetD
import Stdx.Hex.Kernels

/-!
# What the hex decoders read

The loops read pairs of hex digits.  The kernels of NEON and AVX2 read the same; the one for
wasm refuses `/` and nothing else.
-/

namespace Stdx.Hex

open Stdx.Foundation

/-! ## Pairs -/

def IsHexDigit (c : UInt8) : Prop :=
  (48 ≤ c ∧ c ≤ 57) ∨ (65 ≤ c ∧ c ≤ 70) ∨ (97 ≤ c ∧ c ≤ 102)

instance (c : UInt8) : Decidable (IsHexDigit c) := inferInstanceAs (Decidable (_ ∨ _ ∨ _))

/-- The octet of two characters. -/
def pair? : Bytes → Option Bytes
  | [h, l] =>
    if (nibbleFromHex h ||| nibbleFromHex l) &&& 0xF0 = 0 then
      some [(nibbleFromHex h <<< 4) ||| nibbleFromHex l]
    else none
  | _ => none

def readText (text : Bytes) : Option Bytes := inGroups 2 pair? (text.length / 2) text

theorem or_and_eq_zero (x y m : UInt8) : (x ||| y) &&& m = 0 ↔ x &&& m = 0 ∧ y &&& m = 0 := by
  have hsplit : (x ||| y) &&& m = (x &&& m) ||| (y &&& m) :=
    UInt8.toBitVec_inj.1 BitVec.and_or_distrib_right
  rw [hsplit, UInt8.or_eq_zero_iff]

theorem nibbleFromHex_valid : ∀ c, nibbleFromHex c &&& 0xF0 = 0 ↔ IsHexDigit c :=
  forall_octet (by decide +kernel)

theorem pair?_isSome {block : Bytes} (h : block.length = 2) :
    (pair? block).isSome ↔ ∀ c ∈ block, IsHexDigit c := by
  obtain ⟨c, d, rfl⟩ := List.length_eq_two.mp h
  simp only [pair?, or_and_eq_zero, nibbleFromHex_valid, List.forall_mem_cons, List.not_mem_nil,
    false_implies, implies_true, and_true]
  split
  · next hdigits => exact iff_of_true rfl hdigits
  · next hdigits => exact iff_of_false (by simp) hdigits

theorem readText_isSome {text : Bytes} (h : text.length % 2 = 0) :
    (readText text).isSome ↔ ∀ c ∈ text, IsHexDigit c := by
  rw [readText, inGroups_isSome_forall (by omega) fun _ => pair?_isSome,
    List.take_of_length_le (by omega)]

/-! ## The scalar loops -/

/-- After `count` pairs; the error bits say whether all were digits. -/
structure DecodeInv (text : Bytes) (size count : Nat) (s : UInt8 × Bytes) : Prop where
  length_eq : s.2.length = size
  read_eq : inGroups 2 pair? count text =
    if s.1 &&& 0xF0 = 0 then some (s.2.take count) else none

theorem group_two {text : Bytes} {i : Nat} (h : 2 * i + 2 ≤ text.length) :
    group 2 i text = [text.getD (2 * i) 0, text.getD (2 * i + 1) 0] := by
  rw [group, List.drop_eq_getElem_cons (by omega), List.drop_eq_getElem_cons (by omega),
    List.getD_eq_getElem _ _ (by omega), List.getD_eq_getElem _ _ (by omega)]
  rfl

theorem decodePair_length (encodedData : Bytes) (i : Nat) (s : UInt8 × Bytes) :
    (decodePair encodedData i s).2.length = s.2.length :=
  List.length_set ..

theorem take_succ_set {xs : Bytes} {i : Nat} (h : i < xs.length) (x : UInt8) :
    (xs.set i x).take (i + 1) = xs.take i ++ [x] := by
  rw [List.take_succ_eq_append_getElem (by rwa [List.length_set]), List.take_set_of_le le_rfl,
    List.getElem_set_self]

theorem DecodeInv.pair {text : Bytes} {size count : Nat} {s : UInt8 × Bytes}
    (h : DecodeInv text size count s) (hroom : count < size)
    (hmore : 2 * count + 2 ≤ text.length) :
    DecodeInv text size (count + 1) (decodePair text (2 * count) s) := by
  obtain ⟨err, output⟩ := s
  have hlength : output.length = size := h.length_eq
  have hread := h.read_eq
  have hlast : inGroups 2 pair? 1 (text.drop (2 * count)) = pair? (group 2 count text) := by
    simp only [inGroups, group]
    cases pair? ((text.drop (2 * count)).take 2) <;> simp
  refine ⟨(decodePair_length ..).trans hlength, ?_⟩
  rw [inGroups_add, hread, hlast, group_two hmore, pair?]
  simp only [decodePair, or_and_eq_zero err, Nat.mul_div_cancel_left count (by decide : 0 < 2)]
  generalize nibbleFromHex (text.getD (2 * count) 0) = h
  generalize nibbleFromHex (text.getD (2 * count + 1) 0) = l
  by_cases herr : err &&& 0xF0 = 0
  · by_cases hpair : (h ||| l) &&& 0xF0 = 0
    · rw [take_succ_set (by omega)]
      simp [herr, hpair]
    · simp [herr, hpair]
  · simp [herr]

theorem DecodeInv.rounds {text : Bytes} {size : Nat} (hsize : text.length = 2 * size)
    {s : UInt8 × Bytes} (h : DecodeInv text size 0 s) :
    ∃ count, (decodeRounds text (0, s)).1 = 2 * count ∧ 2 * count ≤ text.length ∧
      DecodeInv text size count (decodeRounds text (0, s)).2 := by
  have hrule := whileLoop_rule (c := fun t : Nat × UInt8 × Bytes => decide (t.1 + 32 ≤ text.length))
    (f := fun t => (t.1 + 32, forRange 0 16 (fun k => decodePair text (t.1 + 2 * k)) t.2))
    (I := fun t => ∃ count, t.1 = 2 * count ∧ 2 * count ≤ text.length ∧
      DecodeInv text size count t.2)
    (fun t => text.length - t.1) (k := text.length + 1) (s := (0, s)) ?_
    ⟨0, rfl, Nat.zero_le _, h⟩ (Nat.lt_succ_of_le (Nat.sub_le ..))
  · exact hrule.1
  · rintro ⟨i, t⟩ ⟨count, rfl, hle, hinv⟩ hcond
    have hroom : 2 * count + 32 ≤ text.length := of_decide_eq_true hcond
    have hpairs := forRange_rule (l := 0) (n := 16)
      (f := fun k => decodePair text (2 * count + 2 * k))
      (I := fun k u => DecodeInv text size (count + k) u) (fun k u _ hk hu => by
        have hnext := hu.pair (by omega) (by omega)
        rwa [Nat.mul_add] at hnext) (s := t) hinv
    refine ⟨⟨count + 16, by simp only; omega, by omega, by simpa using hpairs⟩, ?_⟩
    simp only
    omega

theorem DecodeInv.rest {text : Bytes} {size count : Nat} (hsize : text.length = 2 * size)
    {s : UInt8 × Bytes} (h : DecodeInv text size count s) (hle : 2 * count ≤ text.length) :
    DecodeInv text size size (decodeRest text (2 * count, s)).2 := by
  have hrule := whileLoop_rule (c := fun t : Nat × UInt8 × Bytes => decide (t.1 < text.length))
    (f := fun t => (t.1 + 2, decodePair text t.1 t.2))
    (I := fun t => ∃ count, t.1 = 2 * count ∧ 2 * count ≤ text.length ∧
      DecodeInv text size count t.2)
    (fun t => text.length - t.1) (k := text.length + 1) (s := (2 * count, s)) ?_
    ⟨count, rfl, hle, h⟩ (Nat.lt_succ_of_le (Nat.sub_le ..))
  · obtain ⟨⟨last, hlast, hend, hinv⟩, hexit⟩ := hrule
    have hdone := of_decide_eq_false hexit
    have hall : last = size := by omega
    rw [hall] at hinv
    exact hinv
  · rintro ⟨i, t⟩ ⟨count, rfl, hle, hinv⟩ hcond
    have hmore : 2 * count < text.length := of_decide_eq_true hcond
    refine ⟨⟨count + 1, by simp only; omega, by omega, hinv.pair (by omega) (by omega)⟩, ?_⟩
    simp only
    omega

theorem decodeIntoConstantTime_eq {output text : Bytes} (hsize : text.length = 2 * output.length) :
    ∃ out, out.length = output.length ∧
      (readText text = some out ∧ decodeIntoConstantTime output text = (.ok (), out) ∨
        readText text = none ∧
          decodeIntoConstantTime output text = (.error .invalidInput, out)) := by
  have hcheck : checkDecodeInputAndOutputLength text.length output.length = .ok () := by
    simp [checkDecodeInputAndOutputLength, hsize]
  have hstart : DecodeInv text output.length 0 (0, output) := ⟨rfl, by simp [inGroups]⟩
  obtain ⟨count, hcount, hle, hrounds⟩ := hstart.rounds hsize
  have hinv := hrounds.rest hsize hle
  rw [← hcount] at hinv
  refine ⟨_, hinv.length_eq, ?_⟩
  have hread := hinv.read_eq
  rw [List.take_of_length_le hinv.length_eq.le] at hread
  rw [readText, hsize, Nat.mul_div_cancel_left _ (by decide : 0 < 2), hread]
  simp only [decodeIntoConstantTime, hcheck]
  by_cases hvalid : (decodeRest text (decodeRounds text (0, 0, output))).2.1 &&& 0xF0 = 0
  · exact .inl ⟨if_pos hvalid, if_neg (not_not_intro hvalid)⟩
  · exact .inr ⟨if_neg hvalid, if_pos hvalid⟩

theorem decodeIntoConstantTime_bad {output text : Bytes} (hsize : text.length ≠ 2 * output.length) :
    ∃ error, decodeIntoConstantTime output text = (.error error, output) := by
  unfold decodeIntoConstantTime checkDecodeInputAndOutputLength
  by_cases hodd : text.length % 2 ≠ 0
  · exact ⟨_, by rw [if_pos hodd]⟩
  · rw [if_neg hodd, if_pos (by omega)]
    exact ⟨_, rfl⟩

theorem decodeArray_ok_iff {size : Nat} {text result : Bytes} :
    decodeArray size text = .ok result ↔ text.length = 2 * size ∧ readText text = some result := by
  unfold decodeArray
  by_cases hsize : text.length = 2 * size
  · have hlength : text.length = 2 * (List.replicate size (0 : UInt8)).length := by simpa
    obtain ⟨out, -, ⟨hread, hrun⟩ | ⟨hread, hrun⟩⟩ := decodeIntoConstantTime_eq hlength
    · simp [hrun, hread, hsize]
    · simp [hrun, hread]
  · have hlength : text.length ≠ 2 * (List.replicate size (0 : UInt8)).length := by simpa
    obtain ⟨error, hrun⟩ := decodeIntoConstantTime_bad hlength
    simp [hrun, hsize]

theorem readText_length {text data : Bytes} (heven : text.length % 2 = 0)
    (h : readText text = some data) : text.length = 2 * data.length := by
  have hpair (block out : Bytes) (hblock : block.length = 2) (hout : pair? block = some out) :
      out.length = 1 := by
    obtain ⟨c, d, rfl⟩ := List.length_eq_two.mp hblock
    rw [pair?] at hout
    split at hout
    · rw [← Option.some.inj hout]
      rfl
    · cases hout
  have hlength := inGroups_length (by omega) hpair h
  omega

/-! ## The kernels -/

def decodeLane : VectorUnit → Bytes → Option Bytes
  | .neon => Neon.decodeLane
  | .avx2 => Avx2.decodeLane
  | .simd128 => Simd128.decodeLane
  | .scalar => pair?

/-- The pairs that `decode_into` leaves to the kernel. -/
def decodePairs (unit : VectorUnit) (length : Nat) : Nat :=
  match unit with
  | .neon | .avx2 | .simd128 => 16 * (length / 32)
  | .scalar => 0

theorem decodePairs_le (unit : VectorUnit) (length : Nat) :
    2 * decodePairs unit length ≤ length := by
  cases unit <;> simp only [decodePairs] <;> omega

def readBy (unit : VectorUnit) (text : Bytes) : Option Bytes := do
  let front ← inGroups 2 (decodeLane unit) (decodePairs unit text.length) text
  let back ← readText (text.drop (2 * decodePairs unit text.length))
  some (front ++ back)

theorem pack_nibbles (n m : UInt8) (hn : n < 16) (hm : m < 16) :
    (n.toUInt16 * 0x10 + m.toUInt16 * 0x01).toUInt8 = (n <<< 4) ||| m := by
  have hn' : n.toNat < 16 := UInt8.lt_iff_toNat_lt.mp hn
  have hm' : m.toNat < 16 := UInt8.lt_iff_toNat_lt.mp hm
  rw [← UInt8.toNat_inj, shiftLeft_or_toNat (by decide) hm', UInt16.toNat_toUInt8,
    UInt16.toNat_add, UInt16.toNat_mul, UInt16.toNat_mul, UInt8.toNat_toUInt16,
    UInt8.toNat_toUInt16]
  change (n.toNat * 16 % 2 ^ 16 + m.toNat * 1 % 2 ^ 16) % 2 ^ 16 % 2 ^ 8 = n.toNat * 16 % 256 + _
  omega

/-- The masks of NEON and AVX2 mark the digits; simd128 refuses `/` and nothing else. -/
theorem characters_read : ∀ c,
    ((Neon.valid c = 0xff ↔ IsHexDigit c) ∧ (Neon.valid c = 0xff ∨ Neon.valid c = 0) ∧
      (IsHexDigit c → Neon.nibbleByte c = nibbleFromHex c ∧ nibbleFromHex c < 16)) ∧
    ((Avx2.valid c = 0xff ↔ IsHexDigit c) ∧ (Avx2.valid c = 0xff ∨ Avx2.valid c = 0) ∧
      (IsHexDigit c → Avx2.nibble c = nibbleFromHex c ∧ nibbleFromHex c < 16)) ∧
    (Simd128.classifyNibble c > 15 ↔ c = 47) ∧
      (IsHexDigit c → Simd128.classifyNibble c = nibbleFromHex c) :=
  forall_octet (by decide +kernel)

theorem and_masks {x y : UInt8} (hx : x = 0xff ∨ x = 0) (hy : y = 0xff ∨ y = 0) :
    x &&& y = 0xff ↔ x = 0xff ∧ y = 0xff := by
  rcases hx with rfl | rfl <;> rcases hy with rfl | rfl <;> decide

theorem pair?_eq (h l : UInt8) : pair? [h, l] =
    if IsHexDigit h ∧ IsHexDigit l then some [(nibbleFromHex h <<< 4) ||| nibbleFromHex l]
    else none := by
  simp only [pair?, or_and_eq_zero, nibbleFromHex_valid]

theorem neon_decodeLane (h l : UInt8) : Neon.decodeLane [h, l] = pair? [h, l] := by
  obtain ⟨hvalid, hmask, hvalue⟩ := (characters_read h).1
  obtain ⟨hvalid', hmask', hvalue'⟩ := (characters_read l).1
  rw [pair?_eq, Neon.decodeLane]
  simp only [ne_eq, ite_not, and_masks hmask hmask', hvalid, hvalid']
  split
  · next hdigits =>
    rw [(hvalue hdigits.1).1, (hvalue' hdigits.2).1,
      pack_nibbles _ _ (hvalue hdigits.1).2 (hvalue' hdigits.2).2]
  · rfl

theorem avx2_decodeLane (h l : UInt8) : Avx2.decodeLane [h, l] = pair? [h, l] := by
  obtain ⟨hvalid, hmask, hvalue⟩ := (characters_read h).2.1
  obtain ⟨hvalid', hmask', hvalue'⟩ := (characters_read l).2.1
  rw [pair?_eq, Avx2.decodeLane]
  simp only [ne_eq, ite_not, and_masks hmask hmask', hvalid, hvalid']
  split
  · next hdigits =>
    rw [(hvalue hdigits.1).1, (hvalue' hdigits.2).1,
      pack_nibbles _ _ (hvalue hdigits.1).2 (hvalue' hdigits.2).2]
  · rfl

theorem simd128_classify (c : UInt8) : Simd128.classifyNibble c > 15 ↔ c = 47 :=
  (characters_read c).2.2.1

theorem simd128_decodeLane_isSome {block : Bytes} (h : block.length = 2) :
    (Simd128.decodeLane block).isSome ↔ ∀ c ∈ block, c ≠ 47 := by
  obtain ⟨c, d, rfl⟩ := List.length_eq_two.mp h
  simp only [Simd128.decodeLane, simd128_classify c, simd128_classify d,
    List.forall_mem_cons, List.not_mem_nil, false_implies, implies_true, and_true]
  split
  · next hslash => exact iff_of_false (by simp) fun hboth => hslash.elim hboth.1 hboth.2
  · next hslash => exact iff_of_true rfl (not_or.mp hslash)

theorem decodeLane_of_pair? (unit : VectorUnit) {block out : Bytes} (hblock : block.length = 2)
    (h : pair? block = some out) : decodeLane unit block = some out := by
  obtain ⟨c, d, rfl⟩ := List.length_eq_two.mp hblock
  cases unit with
  | scalar => exact h
  | neon => exact (neon_decodeLane c d).trans h
  | avx2 => exact (avx2_decodeLane c d).trans h
  | simd128 =>
    have hdigits := (pair?_isSome hblock).mp (by rw [h]; rfl)
    have hc := hdigits c (by simp)
    have hd := hdigits d (by simp)
    have hplain : ∀ e, IsHexDigit e → e ≠ 47 := by
      rintro _ hdigit rfl
      revert hdigit
      decide
    rw [pair?_eq, if_pos ⟨hc, hd⟩] at h
    rw [decodeLane, Simd128.decodeLane]
    simp only [simd128_classify c, simd128_classify d, hplain c hc, hplain d hd, or_self,
      if_false]
    rw [(characters_read c).2.2.2 hc, (characters_read d).2.2.2 hd, h]

theorem decodeLane_length {unit : VectorUnit} {block out : Bytes} (hblock : block.length = 2)
    (h : decodeLane unit block = some out) : out.length = 1 := by
  obtain ⟨c, d, rfl⟩ := List.length_eq_two.mp hblock
  have hsingle {p : Prop} [Decidable p] {b : UInt8}
      (hlane : (if p then none else some [b]) = some out) : out.length = 1 := by
    split at hlane
    · cases hlane
    · rw [← Option.some.inj hlane]
      rfl
  cases unit with
  | scalar =>
    rw [decodeLane, pair?, ← ite_not] at h
    exact hsingle h
  | neon => exact hsingle h
  | avx2 => exact hsingle h
  | simd128 => exact hsingle h

/-! ## Whole runs -/

theorem readBy_scalar (text : Bytes) : readBy .scalar text = readText text := by
  simp [readBy, decodePairs, inGroups]

theorem decodeVector_eq (unit : VectorUnit) (hunit : unit ≠ .scalar) {output text : Bytes}
    (hsize : text.length = 2 * output.length) :
    ∃ out, readBy unit text = some out ∧
      decodeVector (decodeLane unit) output text = (.ok (), out) ∨
      readBy unit text = none ∧
        decodeVector (decodeLane unit) output text = (.error .invalidInput, out) := by
  have hpairs : decodePairs unit text.length = 16 * (text.length / 32) := by
    cases unit with
    | scalar => exact absurd rfl hunit
    | neon | avx2 | simd128 => rfl
  have hle := decodePairs_le unit text.length
  have hloop := vectorLoop_eq (2 * 16) (inGroups 2 (decodeLane unit) 16) (text.length / 32) text
  rw [inGroups_inGroups, Nat.mul_assoc, ← hpairs] at hloop
  simp only [decodeVector, readBy]
  cases hfront : inGroups 2 (decodeLane unit) (decodePairs unit text.length) text with
  | none =>
    rw [hfront] at hloop
    simp only at hloop
    revert hloop
    cases vectorLoop (2 * 16) (inGroups 2 (decodeLane unit) 16) (text.length / 32) text with
    | mk stored left =>
      rintro rfl
      exact ⟨_, .inr ⟨rfl, rfl⟩⟩
  | some front =>
    rw [hfront] at hloop
    simp only at hloop
    rw [hloop]
    have hlength := inGroups_length hle (fun _ _ => decodeLane_length) hfront
    obtain ⟨rest, hrest⟩ : ∃ rest, text.drop (2 * decodePairs unit text.length) = rest := ⟨_, rfl⟩
    have hdrop : rest.length = text.length - 2 * decodePairs unit text.length := by
      rw [← hrest, List.length_drop]
    have hroom : rest.length = 2 * (output.drop front.length).length := by
      rw [List.length_drop]
      omega
    simp only [hrest]
    by_cases hsome : rest.length > 0
    · rw [if_pos hsome]
      obtain ⟨out, -, ⟨hread, hrun⟩ | ⟨hread, hrun⟩⟩ := decodeIntoConstantTime_eq hroom
      · exact ⟨_, .inl ⟨by rw [hread]; rfl, by rw [hrun]⟩⟩
      · exact ⟨_, .inr ⟨by rw [hread]; rfl, by rw [hrun]⟩⟩
    · obtain rfl : rest = [] := List.length_eq_zero_iff.mp (by omega)
      have hempty : output.drop front.length = [] := List.length_eq_zero_iff.mp (by
        rw [List.length_nil] at hroom
        omega)
      rw [if_neg hsome, hempty]
      exact ⟨_, .inl ⟨rfl, rfl⟩⟩

theorem decodeInto_eq (unit : VectorUnit) {output text : Bytes}
    (hsize : text.length = 2 * output.length) :
    ∃ out, readBy unit text = some out ∧ decodeInto unit output text = (.ok (), out) ∨
      readBy unit text = none ∧ decodeInto unit output text = (.error .invalidInput, out) := by
  have hcheck : checkDecodeInputAndOutputLength text.length output.length = .ok () := by
    simp [checkDecodeInputAndOutputLength, hsize]
  obtain ⟨out, -, hscalar⟩ := decodeIntoConstantTime_eq hsize
  have hfrom (hunit : unit ≠ .scalar) : ∃ out,
      readBy unit text = some out ∧ decodeFrom (decodeLane unit) output text = (.ok (), out) ∨
        readBy unit text = none ∧
          decodeFrom (decodeLane unit) output text = (.error .invalidInput, out) := by
    unfold decodeFrom
    split
    · simp only [hcheck]
      exact decodeVector_eq unit hunit hsize
    · next hshort =>
      have hpairs : decodePairs unit text.length = 0 := by
        cases unit <;> simp only [decodePairs] <;> omega
      have hread : readBy unit text = readText text := by
        simp [readBy, hpairs, inGroups]
      rw [hread]
      exact ⟨out, hscalar⟩
  cases unit with
  | scalar => exact ⟨out, by rw [readBy_scalar]; exact hscalar⟩
  | neon => exact hfrom (by decide)
  | avx2 => exact hfrom (by decide)
  | simd128 => exact hfrom (by decide)

theorem decode_odd (unit : VectorUnit) {text : Bytes} (h : text.length % 2 ≠ 0) :
    ∃ error, decode unit text = .error error := by
  have hlength : text.length ≠ 2 * (List.replicate (text.length / 2) (0 : UInt8)).length := by
    rw [List.length_replicate]
    omega
  have hscalar := decodeIntoConstantTime_bad hlength
  have hfrom (lane : Bytes → Option Bytes) : ∃ error,
      decodeFrom lane (List.replicate (text.length / 2) 0) text =
        (.error error, List.replicate (text.length / 2) 0) := by
    unfold decodeFrom
    split
    · simp [checkDecodeInputAndOutputLength, h]
    · exact hscalar
  have hinto : ∃ error, decodeInto unit (List.replicate (text.length / 2) 0) text =
      (.error error, List.replicate (text.length / 2) 0) := by
    cases unit with
    | scalar => exact hscalar
    | neon => exact hfrom _
    | avx2 => exact hfrom _
    | simd128 => exact hfrom _
  obtain ⟨error, hrun⟩ := hinto
  exact ⟨error, by rw [decode, hrun]⟩

theorem decode_ok_iff (unit : VectorUnit) {text data : Bytes} :
    decode unit text = .ok data ↔ text.length % 2 = 0 ∧ readBy unit text = some data := by
  by_cases heven : text.length % 2 = 0
  · have hlength : text.length = 2 * (List.replicate (text.length / 2) (0 : UInt8)).length := by
      rw [List.length_replicate]
      omega
    obtain ⟨out, hrun⟩ := decodeInto_eq unit hlength
    rw [decode]
    rcases hrun with ⟨hread, hrun⟩ | ⟨hread, hrun⟩
    · rw [hrun, hread]
      simp [heven]
    · rw [hrun, hread]
      simp
  · obtain ⟨error, hrun⟩ := decode_odd unit heven
    simp [hrun, heven]

theorem readBy_length {unit : VectorUnit} {text data : Bytes} (heven : text.length % 2 = 0)
    (h : readBy unit text = some data) : text.length = 2 * data.length := by
  have hle := decodePairs_le unit text.length
  simp only [readBy, Option.bind_eq_bind, Option.bind_eq_some_iff] at h
  obtain ⟨front, hfront, back, hback, hdata⟩ := h
  obtain rfl := Option.some.inj hdata
  have hlength := inGroups_length hle (fun _ _ => decodeLane_length) hfront
  have hrest := readText_length (by rw [List.length_drop]; omega) hback
  rw [List.length_drop] at hrest
  rw [List.length_append]
  omega

/-! ## What a build takes -/

/-- The kernel for wasm refuses `/` only; everything else is to be hex digits. -/
def Taken (unit : VectorUnit) (text : Bytes) : Prop :=
  match unit with
  | .simd128 => (∀ c ∈ text.take (32 * (text.length / 32)), c ≠ 47) ∧
      ∀ c ∈ text.drop (32 * (text.length / 32)), IsHexDigit c
  | .neon | .avx2 | .scalar => ∀ c ∈ text, IsHexDigit c

theorem readBy_isSome (unit : VectorUnit) {text : Bytes} (heven : text.length % 2 = 0) :
    (readBy unit text).isSome ↔ Taken unit text := by
  have hle := decodePairs_le unit text.length
  have hsplit : (readBy unit text).isSome ↔
      (inGroups 2 (decodeLane unit) (decodePairs unit text.length) text).isSome ∧
        (readText (text.drop (2 * decodePairs unit text.length))).isSome := by
    rw [readBy]
    cases inGroups 2 (decodeLane unit) (decodePairs unit text.length) text with
    | none => simp
    | some front => cases readText (text.drop (2 * decodePairs unit text.length)) <;> simp
  have hback : (text.drop (2 * decodePairs unit text.length)).length % 2 = 0 := by
    rw [List.length_drop]
    omega
  have hrest := readText_isSome hback
  have hdigits (hlane : ∀ block : Bytes, block.length = 2 → decodeLane unit block = pair? block) :
      (readBy unit text).isSome ↔ ∀ c ∈ text, IsHexDigit c := by
    rw [hsplit, hrest, inGroups_isSome_forall hle fun block hblock => by
      rw [hlane block hblock]
      exact pair?_isSome hblock]
    conv_rhs => rw [← List.take_append_drop (2 * decodePairs unit text.length) text]
    simp only [List.mem_append]
    exact ⟨fun h c hc => hc.elim (h.1 c) (h.2 c),
      fun h => ⟨fun c hc => h c (.inl hc), fun c hc => h c (.inr hc)⟩⟩
  cases unit with
  | scalar => exact hdigits fun _ _ => rfl
  | neon =>
    refine hdigits fun block hblock => ?_
    obtain ⟨c, d, rfl⟩ := List.length_eq_two.mp hblock
    exact neon_decodeLane c d
  | avx2 =>
    refine hdigits fun block hblock => ?_
    obtain ⟨c, d, rfl⟩ := List.length_eq_two.mp hblock
    exact avx2_decodeLane c d
  | simd128 =>
    have hlanes : (inGroups 2 (decodeLane .simd128) (decodePairs .simd128 text.length)
        text).isSome ↔ ∀ c ∈ text.take (2 * decodePairs .simd128 text.length), c ≠ 47 :=
      inGroups_isSome_forall hle fun _ => simd128_decodeLane_isSome
    rw [hsplit, hrest, hlanes]
    simp only [decodePairs, ← Nat.mul_assoc, Taken]

theorem readBy_of_readText (unit : VectorUnit) {text data : Bytes} (heven : text.length % 2 = 0)
    (h : readText text = some data) : readBy unit text = some data := by
  have hle := decodePairs_le unit text.length
  have hsplit : readText text = (do
      let front ← inGroups 2 pair? (decodePairs unit text.length) text
      let back ← readText (text.drop (2 * decodePairs unit text.length))
      some (front ++ back)) := by
    have hcount : text.length / 2 = decodePairs unit text.length +
        (text.drop (2 * decodePairs unit text.length)).length / 2 := by
      rw [List.length_drop]
      omega
    rw [readText, hcount, inGroups_add]
    rfl
  rw [hsplit] at h
  have hsome : (inGroups 2 pair? (decodePairs unit text.length) text).isSome := by
    cases hfront : inGroups 2 pair? (decodePairs unit text.length) text with
    | none => simp [hfront] at h
    | some front => rfl
  rw [readBy, ← h, inGroups_congr hle fun i hi => ?_]
  have hgroup : (group 2 i text).length = 2 := group_length (by omega)
  obtain ⟨out, hout⟩ := Option.isSome_iff_exists.mp (inGroups_isSome_iff.mp hsome i hi)
  rw [hout, decodeLane_of_pair? unit hgroup hout]

end Stdx.Hex
