import Stdx.Base64.Refinement
import Stdx.Foundation.Padding

/-!
# Padding, and whole runs of the scalar decoder

What the padding inspection accepts, and what the loops make of the content in front of it.
-/

namespace Stdx.Base64

open Stdx.Foundation

/-! ## Padding -/

theorem stripPaddingInfo_false {data : Bytes} {contentLen padCount : Nat}
    (h : stripPaddingInfo data false = .ok (contentLen, padCount)) :
    contentLen = data.length ∧ padCount = 0 ∧ EndsPlain pad data := by
  unfold stripPaddingInfo at h
  simp only [Bool.not_false, if_true] at h
  cases hlast : (if data.length > 0 then data.getD (data.length - 1) 0 == pad
    else false) with
  | true =>
    rw [hlast] at h
    simp at h
  | false =>
    rw [hlast] at h
    simp only [Bool.false_eq_true, if_false, Except.ok.injEq,
      Prod.mk.injEq] at h
    refine ⟨h.1.symm, h.2.symm, fun j hj => ?_⟩
    rw [if_pos (by omega), show data.length - 1 = j by omega] at hlast
    exact beq_eq_false_iff_ne.mp hlast

theorem stripPaddingInfo_false_of_plain {data : Bytes} (h : EndsPlain pad data) :
    stripPaddingInfo data false = .ok (data.length, 0) := by
  have hlast : (if data.length > 0 then data.getD (data.length - 1) 0 == pad
      else false) = false := by
    split
    · next hpos => exact beq_eq_false_iff_ne.mpr (h _ (by omega))
    · rfl
  simp only [stripPaddingInfo, Bool.not_false, if_true, hlast,
    Bool.false_eq_true, if_false]

private theorem land_three (n : Nat) : n &&& 3 = n % 4 :=
  Nat.and_two_pow_sub_one_eq_mod n 2

theorem stripPaddingInfo_true {data : Bytes} {contentLen padCount : Nat}
    (h : stripPaddingInfo data true = .ok (contentLen, padCount)) :
    data = data.take contentLen ++ List.replicate padCount pad ∧
      contentLen ≤ data.length ∧ padCount ≤ 2 ∧
      (padCount ≠ 0 → contentLen % 4 + padCount = 4) ∧
      ∀ j, j + 1 = contentLen → data.getD j 0 ≠ pad := by
  unfold stripPaddingInfo at h
  simp only [Bool.not_true, Bool.false_eq_true, if_false, land_three] at h
  by_cases hp0 : data.length > 0 ∧ data.getD (data.length - 1) 0 = pad
  · by_cases hp1 : data.length > 1 ∧ data.getD (data.length - 2) 0 = pad
    · by_cases hp2 : data.length > 2 ∧ data.getD (data.length - 3) 0 = pad
      · -- Three pads or more are never accepted.
        simp only [hp0.1, hp1.1, hp2.1, hp0.2, hp1.2, hp2.2, if_true] at h
        simp at h
        split_ifs at h
      · have hb2 : ((if data.length > 2 then data.getD (data.length - 3) 0
            else 0) == pad) = false := by
          split
          · next hlen =>
            exact beq_eq_false_iff_ne.mpr fun heq => hp2 ⟨hlen, heq⟩
          · decide
        simp only [hp0.1, hp1.1, hp0.2, hp1.2, hb2, if_true] at h
        simp only [BEq.rfl, Bool.toNat_true, Bool.toNat_false, Nat.reduceAnd,
          Nat.reduceAdd] at h
        simp only [show ((2 : Nat) != 0) = true from rfl, Bool.toNat_true] at h
        split at h
        · simp at h
        split at h
        · simp at h
        next hmod =>
        simp only [Except.ok.injEq, Prod.mk.injEq] at h
        obtain ⟨rfl, rfl⟩ := h
        have hcount : (data.length - 2) % 4 = 2 := by
          by_contra hne
          have : ((data.length - 2) % 4 == 4 - 2) = false :=
            beq_eq_false_iff_ne.mpr hne
          simp [this] at hmod
        have hdrop := drop_eq_pair (by omega : data.length - 2 + 2 = data.length)
        rw [show data.length - 2 + 1 = data.length - 1 by omega, hp0.2,
          hp1.2] at hdrop
        refine ⟨?_, by omega, le_rfl, fun _ => by omega, fun j hj heq => ?_⟩
        rotate_left
        · exact hp2 ⟨by omega, by rw [show data.length - 3 = j by omega, heq]⟩
        conv_lhs => rw [← List.take_append_drop (data.length - 2) data, hdrop]
        rfl
    · have hb1 : ((if data.length > 1 then data.getD (data.length - 2) 0
          else 0) == pad) = false := by
        split
        · next hlen =>
          exact beq_eq_false_iff_ne.mpr fun heq => hp1 ⟨hlen, heq⟩
        · decide
      simp only [hp0.1, hp0.2, hb1, if_true] at h
      simp only [BEq.rfl, Bool.toNat_true, Bool.toNat_false, Nat.and_zero,
        Nat.zero_and, Nat.add_zero] at h
      simp only [show ((1 : Nat) != 0) = true from rfl, Bool.toNat_true] at h
      split at h
      · simp at h
      split at h
      · simp at h
      next hmod =>
      simp only [Except.ok.injEq, Prod.mk.injEq] at h
      obtain ⟨rfl, rfl⟩ := h
      have hcount : (data.length - 1) % 4 = 3 := by
        by_contra hne
        have : ((data.length - 1) % 4 == 4 - 1) = false :=
          beq_eq_false_iff_ne.mpr hne
        simp [this] at hmod
      have hdrop := drop_eq_singleton
        (by omega : data.length - 1 + 1 = data.length)
      rw [hp0.2] at hdrop
      refine ⟨?_, by omega, by omega, fun _ => by omega, fun j hj heq => ?_⟩
      rotate_left
      · exact hp1 ⟨by omega, by rw [show data.length - 2 = j by omega, heq]⟩
      conv_lhs => rw [← List.take_append_drop (data.length - 1) data, hdrop]
      rfl
  · have hb0 : ((if data.length > 0 then data.getD (data.length - 1) 0
        else 0) == pad) = false := by
      split
      · next hlen =>
        exact beq_eq_false_iff_ne.mpr fun heq => hp0 ⟨hlen, heq⟩
      · decide
    simp only [hb0, Bool.toNat_false, Nat.zero_and, Nat.add_zero,
      Nat.sub_zero] at h
    simp at h
    obtain ⟨rfl, rfl⟩ := h
    refine ⟨by simp, le_rfl, by omega, fun hne => absurd rfl hne, fun j hj heq => ?_⟩
    exact hp0 ⟨by omega, by rw [show data.length - 1 = j by omega, heq]⟩

theorem stripPaddingInfo_true_of_plain {content : Bytes} {count : Nat}
    (hplain : EndsPlain pad content)
    (hcount : count = 0 ∨ count ≤ 2 ∧ content.length % 4 + count = 4) :
    stripPaddingInfo (content ++ List.replicate count pad) true =
      .ok (content.length, count) := by
  have hlast : ∀ j, j + 1 = content.length →
      ((content ++ List.replicate count pad).getD j 0 == pad) = false := by
    intro j hj
    rw [List.getD_eq_getElem?_getD, List.getElem?_append_left (by omega),
      ← List.getD_eq_getElem?_getD]
    exact beq_eq_false_iff_ne.mpr (hplain j hj)
  have hpads : ∀ j, content.length ≤ j → j < content.length + count →
      (content ++ List.replicate count pad).getD j 0 = pad := by
    intro j hle hlt
    rw [List.getD_eq_getElem?_getD, List.getElem?_append_right hle,
      List.getElem?_replicate, if_pos (by omega), Option.getD_some]
  generalize htext : content ++ List.replicate count pad = text at hlast hpads
  have hlength : text.length = content.length + count := by simp [← htext]
  unfold stripPaddingInfo
  simp only [Bool.not_true, Bool.false_eq_true, if_false, land_three, hlength]
  rcases hcount with rfl | ⟨hle, hsum⟩
  · have hb0 : ((if content.length > 0 then
        text.getD (content.length - 1) 0 else 0) == pad) = false := by
      split
      · exact hlast _ (by omega)
      · decide
    simp only [Nat.add_zero, hb0, Bool.toNat_false, Nat.zero_and, Nat.sub_zero]
    simp
  · have hcases : count = 1 ∨ count = 2 := by omega
    rcases hcases with rfl | rfl
    · have hb0 := hpads content.length (by omega) (by omega)
      have hb1 := hlast (content.length + 1 - 2) (by omega)
      have hmod : (content.length + 1) % 4 = 0 := by omega
      have hmod' : content.length % 4 = 3 := by omega
      simp only [show content.length + 1 > 0 by omega,
        show content.length + 1 > 1 by omega, if_true, Nat.add_sub_cancel, hb0,
        hb1, BEq.rfl, Bool.toNat_true, Bool.toNat_false, Nat.and_zero,
        Nat.zero_and, Nat.add_zero, hmod, hmod']
      rfl
    · have hb0 := hpads (content.length + 2 - 1) (by omega) (by omega)
      have hb1 := hpads content.length (by omega) (by omega)
      have hb2 : ((if content.length + 2 > 2 then
          text.getD (content.length + 2 - 3) 0 else 0) == pad) = false := by
        rw [if_pos (by omega)]
        exact hlast _ (by omega)
      have hmod : (content.length + 2) % 4 = 0 := by omega
      have hmod' : content.length % 4 = 2 := by omega
      simp only [show content.length + 2 > 0 by omega,
        show content.length + 2 > 1 by omega, if_true, Nat.add_sub_cancel, hb0,
        hb1, hb2, BEq.rfl, Bool.toNat_true, Bool.toNat_false, Nat.and_self,
        Nat.and_zero, Nat.add_zero, hmod, Nat.reduceAdd, hmod']
      rfl

/-- A content and the pads behind it that the inspection takes away. -/
structure Strips (alphabet : Alphabet) (content : Bytes) (count : Nat) : Prop where
  plain : EndsPlain pad content
  pads : count = 0 ∨ alphabet.isPadded = true ∧ count ≤ 2 ∧ content.length % 4 + count = 4

theorem stripPaddingInfo_iff {alphabet : Alphabet} {data : Bytes} {contentLen padCount : Nat} :
    stripPaddingInfo data alphabet.isPadded = .ok (contentLen, padCount) ↔
      ∃ content, data = content ++ List.replicate padCount pad ∧
        contentLen = content.length ∧ Strips alphabet content padCount := by
  cases hpadded : alphabet.isPadded with
  | false =>
    constructor
    · intro h
      obtain ⟨rfl, rfl, hplain⟩ := stripPaddingInfo_false h
      exact ⟨data, by simp, rfl, hplain, .inl rfl⟩
    · rintro ⟨content, rfl, rfl, hplain, rfl | ⟨hpad, -⟩⟩
      · simpa using stripPaddingInfo_false_of_plain hplain
      · rw [hpadded] at hpad
        cases hpad
  | true =>
    constructor
    · intro h
      obtain ⟨hsplit, hle, htwo, hgroup, hlast⟩ := stripPaddingInfo_true h
      have hlength : (data.take contentLen).length = contentLen := List.length_take_of_le hle
      refine ⟨data.take contentLen, hsplit, hlength.symm, ?_, ?_⟩
      · intro j hj
        rw [hlength] at hj
        rw [List.getD_eq_getElem?_getD, List.getElem?_take_of_lt (by omega),
          ← List.getD_eq_getElem?_getD]
        exact hlast j hj
      · by_cases hzero : padCount = 0
        · exact .inl hzero
        · exact .inr ⟨hpadded, htwo, by rw [hlength]; exact hgroup hzero⟩
    · rintro ⟨content, rfl, rfl, hplain, hpads⟩
      exact stripPaddingInfo_true_of_plain hplain (hpads.imp_right And.right)

/-! ## Whole runs of the decoder -/

section Runs

variable {alphabet : Alphabet}

/-- The octets that `length` characters hold, a lone last one aside. -/
def capacity (length : Nat) : Nat := length / 4 * 3 + (length % 4 - 1)

theorem decodedLength_eq (T : Target) {length : Nat}
    (hfits : capacity length < 2 ^ T.usizeBits) (hlone : length % 4 ≠ 1) :
    decodedLength T length = .ok (capacity length) := by
  unfold decodedLength
  unfold capacity at *
  have hmod : length % 4 = 0 ∨ length % 4 = 2 ∨ length % 4 = 3 := by omega
  rcases hmod with h | h | h
  all_goals simp only [h] at *
  · simp; omega
  · rw [if_neg (by omega), if_pos (by omega)]
  · rw [if_neg (by omega), if_pos (by omega)]

theorem decodedLength_ok {T : Target} {length computed : Nat}
    (h : decodedLength T length = .ok computed) :
    computed = capacity length ∧ length % 4 ≠ 1 ∧ computed < 2 ^ T.usizeBits := by
  unfold decodedLength at h
  unfold capacity
  simp only at h
  split at h
  · simp at h
  have hmod : length % 4 < 4 := Nat.mod_lt _ (by omega)
  interval_cases hrem : length % 4
  · simp only [Except.ok.injEq] at h
    omega
  · simp at h
  · simp only at h
    split at h
    · simp only [Except.ok.injEq] at h
      omega
    · simp at h
  · simp only at h
    split at h
    · simp only [Except.ok.injEq] at h
      omega
    · simp at h

def decodeRun (alphabet : Alphabet) (data : Bytes) (contentLen : Nat)
    (output : Bytes) : UInt8 × Bytes :=
  decodeTail alphabet data contentLen
    (decodeBlocks alphabet data contentLen 1
      (decodeBlocks alphabet data contentLen 8 ⟨0, 0, 0, output⟩))

variable (alphabet) in
theorem decodeRun_spec {data content output : Bytes}
    (hdata : ContentOf data content)
    (hroom : capacity content.length ≤ output.length) :
    decodeText alphabet content =
      (if (decodeRun alphabet data content.length output).1 < 64 then
        some ((decodeRun alphabet data content.length output).2.take
          (capacity content.length))
      else none) ∧
    (decodeRun alphabet data content.length output).2.length =
      output.length := by
  unfold capacity at *
  have hstart : DecodeInv alphabet content output.length 0 0 0 output := by
    refine ⟨Nat.zero_le _, rfl, rfl, rfl, ?_⟩
    simp
  obtain ⟨hfirst, -⟩ := DecodeInv.blocks (s := ⟨0, 0, 0, output⟩) 8 (by omega)
    hdata (by omega) hstart
  obtain ⟨hsecond, hexit⟩ := hfirst.blocks 1 (by omega) hdata (by omega)
  have haligned := hsecond.aligned
  have hposition := hsecond.position
  have hle := hsecond.le
  have hspec := decodeTail_spec hdata hsecond hexit (by omega)
  unfold decodeRun
  rwa [show content.length / 4 * 3 + (content.length % 4 - 1) = _ from ?_]
  omega

theorem decodeIntoConstantTime_eq (T : Target) {data content o : Bytes}
    {padCount : Nat}
    (hstrip : stripPaddingInfo data alphabet.isPadded =
      .ok (content.length, padCount))
    (hdata : ContentOf data content) (hlone : content.length % 4 ≠ 1)
    (hfits : capacity content.length < 2 ^ T.usizeBits)
    (hroom : capacity content.length ≤ o.length) :
    ∃ output', output'.length = o.length ∧
      ((decodeText alphabet content =
          some (output'.take (capacity content.length)) ∧
        decodeIntoConstantTime T o data alphabet =
          (.ok (capacity content.length), output')) ∨
      (decodeText alphabet content = none ∧
        decodeIntoConstantTime T o data alphabet =
          (.error .invalidInput, output'))) := by
  have hle := hdata.le
  by_cases hempty : content.length = 0
  · obtain rfl := List.length_eq_zero_iff.mp hempty
    refine ⟨o, rfl, .inl ⟨by simp [capacity, decodeText], ?_⟩⟩
    simp only [List.length_nil] at hstrip
    simp only [decodeIntoConstantTime, hstrip, List.length_nil, if_true, ite_self]
    rfl
  · obtain ⟨htext, hlength⟩ := decodeRun_spec alphabet hdata hroom
    refine ⟨(decodeRun alphabet data content.length o).2, hlength, ?_⟩
    simp only [decodeIntoConstantTime, show data.length ≠ 0 by omega, if_false,
      hstrip, hempty, decodedLength_eq T hfits hlone,
      show ¬ o.length < capacity content.length by omega]
    change _ ∧ (if (decodeRun alphabet data content.length o).1 ≥ 64 then _
      else _) = _ ∨ _ ∧ (if (decodeRun alphabet data content.length o).1 ≥ 64
      then _ else _) = _
    by_cases hvalid : (decodeRun alphabet data content.length o).1 < 64
    · rw [if_pos hvalid] at htext
      exact .inl ⟨htext, by rw [if_neg (UInt8.not_le.mpr hvalid)]; rfl⟩
    · rw [if_neg hvalid] at htext
      exact .inr ⟨htext, by rw [if_pos (UInt8.not_lt.mp hvalid)]; rfl⟩

theorem contentOf_take {data : Bytes} {contentLen : Nat}
    (h : contentLen ≤ data.length) : ContentOf data (data.take contentLen) := by
  refine ⟨by simp, ?_⟩
  intro j hj
  rw [List.length_take_of_le h] at hj
  simp [List.getD_eq_getElem?_getD, hj]

theorem contentOf_append (content suffix : Bytes) :
    ContentOf (content ++ suffix) content := by
  refine ⟨by simp, ?_⟩
  intro j hj
  simp [List.getD_eq_getElem?_getD, List.getElem?_append_left hj]

/-- A text completed with its missing pads. -/
def completed (alphabet : Alphabet) (text : Bytes) : Bytes :=
  if alphabet.isPadded then text ++ padding text.length else text

theorem completed_of_strips {content : Bytes} {count : Nat} (h : Strips alphabet content count) :
    completed alphabet (content ++ List.replicate count pad) = completed alphabet content := by
  obtain rfl | ⟨hpadded, htwo, hgroup⟩ := h.pads
  · simp
  · simp only [completed, hpadded, if_true, padding, List.length_append, List.length_replicate]
    rw [List.append_assoc, ← List.replicate_add]
    congr 2
    omega

variable (alphabet) in
/-- The padded text of `data`, seen as content followed by pads. -/
theorem paddedText_eq_append (data : Bytes) :
    ∃ count, paddedText alphabet data =
        encodeText alphabet data ++ List.replicate count pad ∧
      Strips alphabet (encodeText alphabet data) count := by
  have hplain := endsPlain_of_ne (encodeText_ne_pad alphabet data)
  have hlone : (encodeText alphabet data).length % 4 ≠ 1 := by
    rw [encodeText_length]
    split <;> omega
  cases hpadded : alphabet.isPadded with
  | false => exact ⟨0, by simp [paddedText, hpadded], hplain, .inl rfl⟩
  | true =>
    refine ⟨(4 - (encodeText alphabet data).length % 4) % 4,
      by simp [paddedText, hpadded, padding], hplain, ?_⟩
    by_cases hzero : (4 - (encodeText alphabet data).length % 4) % 4 = 0
    · exact .inl hzero
    · exact .inr ⟨hpadded, by omega⟩

variable (alphabet) in
theorem capacity_encodeText (data : Bytes) :
    capacity (encodeText alphabet data).length = data.length ∧
      (encodeText alphabet data).length % 4 ≠ 1 := by
  rw [encodeText_length]
  unfold capacity
  split <;> omega

end Runs

end Stdx.Base64
