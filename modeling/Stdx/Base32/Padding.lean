import Stdx.Base32.Decoder
import Stdx.Foundation.Padding

/-!
# Padding, and whole runs of the scalar decoder

What the padding inspection accepts, and what the loops make of the content in front of it.
-/

namespace Stdx.Base32

open Stdx.Foundation

/-! ## Padding -/

/-- After `k` octets from the end: the pads so far, and whether there were others. -/
structure PadInv (data : Bytes) (k count : Nat) (allPad : UInt8) : Prop where
  le : count ≤ k
  pads : ∀ j < count, data.getD (data.length - 1 - j) 0 = PAD
  mask : allPad = 0xff ∧ count = k ∨
    allPad = 0 ∧ count < k ∧ data.getD (data.length - 1 - count) 0 ≠ PAD

theorem PadInv.step {data : Bytes} {k count : Nat} {allPad : UInt8}
    (h : PadInv data k count allPad) :
    let isPad : UInt8 := if data.getD (data.length - 1 - k) 0 = PAD then 0xff else 0x00
    PadInv data (k + 1) (selectPad (allPad &&& isPad) (k + 1) count) (allPad &&& isPad) := by
  have hle := h.le
  have hall (x y : Nat) : selectPad 0xff x y = x := rfl
  have hnone (x y : Nat) : selectPad 0 x y = y := rfl
  intro isPad
  rcases h.mask with ⟨rfl, rfl⟩ | ⟨rfl, hlt, hother⟩
  · by_cases hpad : data.getD (data.length - 1 - count) 0 = PAD
    · have hmask : 0xff &&& isPad = 0xff := by
        simp only [isPad, if_pos hpad]
        rfl
      rw [hmask, hall]
      refine ⟨Nat.le_refl _, ?_, .inl ⟨rfl, rfl⟩⟩
      intro j hj
      rcases Nat.lt_succ_iff_lt_or_eq.mp hj with hj | rfl
      · exact h.pads j hj
      · exact hpad
    · have hmask : 0xff &&& isPad = 0 := by
        simp only [isPad, if_neg hpad]
        rfl
      rw [hmask, hnone]
      exact ⟨by omega, h.pads, .inr ⟨rfl, by omega, hpad⟩⟩
  · rw [UInt8.zero_and, hnone]
    exact ⟨by omega, h.pads, .inr ⟨rfl, by omega, hother⟩⟩

theorem countTrailingPadding_spec (data : Bytes) :
    countTrailingPadding data ≤ min data.length 7 ∧
      (∀ j < countTrailingPadding data, data.getD (data.length - 1 - j) 0 = PAD) ∧
      (countTrailingPadding data = min data.length 7 ∨
        data.getD (data.length - 1 - countTrailingPadding data) 0 ≠ PAD) := by
  have hmax : (if data.length < 7 then data.length else 7) = min data.length 7 := by
    split <;> omega
  have hrule := forRange_rule (l := 0) (n := min data.length 7)
    (f := fun k (s : Nat × UInt8) =>
      let isPad : UInt8 := if data.getD (data.length - 1 - k) 0 = PAD then 0xff else 0x00
      let allPad := s.2 &&& isPad
      (selectPad allPad (k + 1) s.1, allPad))
    (I := fun k s => PadInv data k s.1 s.2) (fun k s _ _ hinv => hinv.step)
    (s := (0, (0xff : UInt8))) ⟨Nat.le_refl _, by simp, .inl ⟨rfl, rfl⟩⟩
  rw [Nat.zero_add] at hrule
  have hcount : countTrailingPadding data = (forRange 0 (min data.length 7)
      (fun k (s : Nat × UInt8) =>
        let isPad : UInt8 := if data.getD (data.length - 1 - k) 0 = PAD then 0xff else 0x00
        let allPad := s.2 &&& isPad
        (selectPad allPad (k + 1) s.1, allPad)) (0, (0xff : UInt8))).1 := by
    rw [countTrailingPadding, ← hmax]
  rw [hcount]
  refine ⟨hrule.le, hrule.pads, ?_⟩
  rcases hrule.mask with ⟨-, hfull⟩ | ⟨-, -, hother⟩
  · exact .inl hfull
  · exact .inr hother

theorem take_append_pads {data : Bytes} {count : Nat} (hle : count ≤ data.length)
    (hpads : ∀ j < count, data.getD (data.length - 1 - j) 0 = PAD) :
    data = data.take (data.length - count) ++ List.replicate count PAD := by
  conv_lhs => rw [← List.take_append_drop (data.length - count) data]
  congr 1
  rw [drop_eq_map_getD (n := count) (by omega)]
  apply List.ext_getElem
  · simp
  · intro j hj hj'
    rw [List.length_replicate] at hj'
    have hpad := hpads (count - 1 - j) (by omega)
    have hindex : data.length - 1 - (count - 1 - j) = data.length - count + j := by omega
    rw [hindex] at hpad
    simpa using hpad

theorem stripPaddingInfo_true {data : Bytes} {contentLen padCount : Nat}
    (h : stripPaddingInfo data true = .ok (contentLen, padCount)) :
    contentLen ≤ data.length ∧
      data = data.take contentLen ++ List.replicate padCount PAD ∧
      (padCount ≠ 0 → data.length % 8 = 0 ∧ contentLen % 8 + padCount = 8 ∧ padCount < 8) := by
  obtain ⟨hle, hpads, -⟩ := countTrailingPadding_spec data
  unfold stripPaddingInfo at h
  simp only [if_true] at h
  generalize countTrailingPadding data = count at *
  have hsplit := take_append_pads (by omega) hpads
  split at h
  · next hempty =>
    obtain ⟨rfl, rfl⟩ : 0 = contentLen ∧ 0 = padCount := by simpa using h
    simp [List.length_eq_zero_iff.mp hempty]
  · have hok (err : Bool) (hresult : (if err then Except.error DecodeError.invalidPadding
        else Except.ok (data.length - count, count)) = .ok (contentLen, padCount)) :
        err = false ∧ data.length - count = contentLen ∧ count = padCount := by
      cases err with
      | true => cases hresult
      | false => simpa using hresult
    obtain ⟨hvalid, rfl, rfl⟩ := hok _ h
    simp only [Bool.or_eq_false_iff, Bool.and_eq_false_iff, decide_eq_false_iff_not] at hvalid
    obtain ⟨⟨hlength, hsix⟩, hgroup⟩ := hvalid
    refine ⟨by omega, hsplit, ?_⟩
    intro hne
    have hpos : 0 < count := Nat.pos_of_ne_zero hne
    have height : data.length % 8 = 0 := by simpa using hlength.resolve_left (not_not_intro hpos)
    have hcount := hgroup.resolve_left (not_not_intro hpos)
    refine ⟨height, ?_, by omega⟩
    split at hcount
    · have hpart : (data.length - 6) % 8 = 2 := by simpa using hcount
      omega
    · have hpart : (data.length - 4) % 8 = 4 := by simpa using hcount
      omega
    · have hpart : (data.length - 3) % 8 = 5 := by simpa using hcount
      omega
    · have hpart : (data.length - 1) % 8 = 7 := by simpa using hcount
      omega
    · cases hcount

theorem countTrailingPadding_append {content : Bytes} {count : Nat}
    (hne : ∀ c ∈ content, c ≠ PAD) (hcount : count ≤ 6) :
    countTrailingPadding (content ++ List.replicate count PAD) = count := by
  obtain ⟨hle, hpads, hend⟩ := countTrailingPadding_spec (content ++ List.replicate count PAD)
  have hlength : (content ++ List.replicate count PAD).length = content.length + count := by simp
  have hpad (j : Nat) (hj : j < count) : (content ++ List.replicate count PAD).getD
      ((content ++ List.replicate count PAD).length - 1 - j) 0 = PAD := by
    rw [List.getD_eq_getElem?_getD, List.getElem?_append_right (by omega),
      List.getElem?_replicate, if_pos (by omega), Option.getD_some]
  have hother (hsome : 0 < content.length) : (content ++ List.replicate count PAD).getD
      ((content ++ List.replicate count PAD).length - 1 - count) 0 ≠ PAD := by
    have hj : (content ++ List.replicate count PAD).length - 1 - count < content.length := by
      omega
    rw [List.getD_eq_getElem?_getD, List.getElem?_append_left hj, List.getElem?_eq_getElem hj,
      Option.getD_some]
    exact hne _ (List.getElem_mem hj)
  generalize countTrailingPadding (content ++ List.replicate count PAD) = found at *
  rcases Nat.lt_trichotomy found count with hlt | heq | hgt
  · rcases hend with hfull | hend
    · omega
    · exact absurd (hpad found hlt) hend
  · exact heq
  · exact absurd (hpads count hgt) (hother (by omega))

theorem stripPaddingInfo_true_of_ne {content : Bytes} {count : Nat}
    (hne : ∀ c ∈ content, c ≠ PAD)
    (hcount : count = 0 ∨ count ∈ [1, 3, 4, 6] ∧ content.length % 8 + count = 8) :
    stripPaddingInfo (content ++ List.replicate count PAD) true = .ok (content.length, count) := by
  have hsix : count ≤ 6 := by
    rcases hcount with rfl | ⟨hmem, -⟩
    · omega
    · simp only [List.mem_cons, List.not_mem_nil, or_false] at hmem
      omega
  have hfound := countTrailingPadding_append hne hsix
  have hlength : (content ++ List.replicate count PAD).length = content.length + count := by simp
  unfold stripPaddingInfo
  simp only [if_true, hfound, hlength, Nat.add_sub_cancel]
  split
  · next hempty =>
    obtain ⟨hcontent, rfl⟩ : content.length = 0 ∧ count = 0 := by omega
    rw [hcontent]
  · rcases hcount with rfl | ⟨hmem, hmod⟩
    · simp
    · have height : (content.length + count) % 8 = 0 := by omega
      simp only [List.mem_cons, List.not_mem_nil, or_false] at hmem
      rcases hmem with rfl | rfl | rfl | rfl
      · have hpart : content.length % 8 = 7 := by omega
        simp [height, hpart]
      · have hpart : content.length % 8 = 5 := by omega
        simp [height, hpart]
      · have hpart : content.length % 8 = 4 := by omega
        simp [height, hpart]
      · have hpart : content.length % 8 = 2 := by omega
        simp [height, hpart]

theorem stripPaddingInfo_false {data : Bytes} {contentLen padCount : Nat}
    (h : stripPaddingInfo data false = .ok (contentLen, padCount)) : contentLen = data.length := by
  unfold stripPaddingInfo at h
  simp only [Bool.false_eq_true, if_false] at h
  split at h
  · cases h
  · obtain ⟨rfl, -⟩ : data.length = contentLen ∧ 0 = padCount := by simpa using h
    rfl

theorem stripPaddingInfo_false_of_ne {data : Bytes} (h : ∀ c ∈ data, c ≠ PAD) :
    stripPaddingInfo data false = .ok (data.length, 0) := by
  have hlast : ¬(data.length > 0 ∧ data.getD (data.length - 1) 0 = PAD) := by
    rintro ⟨hpos, hpad⟩
    rw [List.getD_eq_getElem _ _ (by omega)] at hpad
    exact h _ (List.getElem_mem _) hpad
  simp only [stripPaddingInfo, Bool.false_eq_true, if_false, hlast]

theorem decodedLength_eq {n : Nat} (h : charactersOf (octetsOf n) = n) :
    decodedLength n = .ok (octetsOf n) := by
  have hmod : n % 8 = 0 ∨ n % 8 = 2 ∨ n % 8 = 4 ∨ n % 8 = 5 ∨ n % 8 = 7 := by
    unfold charactersOf octetsOf at h
    omega
  unfold decodedLength octetsOf
  rcases hmod with h | h | h | h | h <;> simp only [h, Except.ok.injEq] <;> omega

theorem decodedLength_ok {n computed : Nat} (h : decodedLength n = .ok computed) :
    computed = octetsOf n ∧ charactersOf (octetsOf n) = n := by
  have hmod : n % 8 < 8 := Nat.mod_lt _ (by omega)
  unfold decodedLength at h
  unfold charactersOf octetsOf
  interval_cases hrem : n % 8 <;> simp only [Except.ok.injEq, reduceCtorEq] at h <;> omega

/-! ## Whole runs of the decoder -/

section Runs

variable {alphabet : Alphabet}

theorem decodeIntoConstantTime_eq {data content output : Bytes} {padCount : Nat}
    (hstrip : stripPaddingInfo data alphabet.isPadded = .ok (content.length, padCount))
    (hdata : ContentOf data content)
    (heven : charactersOf (octetsOf content.length) = content.length)
    (hroom : octetsOf content.length ≤ output.length) :
    ∃ output', output'.length = output.length ∧
      (decodeText alphabet content = some (output'.take (octetsOf content.length)) ∧
          decodeIntoConstantTime output data alphabet = (.ok (), output') ∨
        decodeText alphabet content = none ∧
          decodeIntoConstantTime output data alphabet = (.error .invalidInput, output')) := by
  have hle := hdata.le
  rcases Nat.eq_zero_or_pos content.length with hempty | hsome
  · obtain rfl := List.length_eq_zero_iff.mp hempty
    refine ⟨output, rfl, .inl ⟨by simp [decodeText, decodeGroup, values, octets, octetsOf,
      charactersOf], ?_⟩⟩
    rw [List.length_nil] at hstrip
    simp [decodeIntoConstantTime, hstrip]
  · have hstart : DecodeInv alphabet content output.length ⟨0, 0, 0, output⟩ :=
      ⟨Nat.zero_le _, rfl, by simp, rfl, by simp⟩
    obtain ⟨hinv, hexit⟩ := hstart.loops hdata (by unfold octetsOf at hroom; omega)
    obtain ⟨err, output', htail, hlength, htext⟩ := decodeTail_spec hdata hinv hexit hroom heven
    refine ⟨output', hlength, ?_⟩
    have hne : data.length ≠ 0 := by omega
    have hsize : ¬output.length < octetsOf content.length := Nat.not_lt.mpr hroom
    simp only [decodeIntoConstantTime, if_neg hne, hstrip, if_neg (Nat.ne_of_gt hsome),
      decodedLength_eq heven, if_neg hsize, htail]
    by_cases hvalid : err < 32
    · rw [if_pos hvalid] at htext
      exact .inl ⟨htext, if_neg (UInt8.not_le.mpr hvalid)⟩
    · rw [if_neg hvalid] at htext
      exact .inr ⟨htext, if_pos (UInt8.not_lt.mp hvalid)⟩

theorem contentOf_take {data : Bytes} {contentLen : Nat} (h : contentLen ≤ data.length) :
    ContentOf data (data.take contentLen) := by
  refine ⟨by simp, ?_⟩
  intro j hj
  rw [List.length_take_of_le h] at hj
  simp [List.getD_eq_getElem?_getD, hj]

theorem contentOf_append (content suffix : Bytes) : ContentOf (content ++ suffix) content := by
  refine ⟨by simp, ?_⟩
  intro j hj
  simp [List.getD_eq_getElem?_getD, List.getElem?_append_left hj]

variable (alphabet) in
def completed (text : Bytes) : Bytes :=
  if alphabet.isPadded then text ++ padding text.length else text

theorem stripPaddingInfo_content {data : Bytes} {contentLen padCount : Nat}
    (h : stripPaddingInfo data alphabet.isPadded = .ok (contentLen, padCount)) :
    contentLen ≤ data.length ∧
      completed alphabet data = completed alphabet (data.take contentLen) := by
  unfold completed
  cases hpadded : alphabet.isPadded with
  | false =>
    rw [hpadded] at h
    obtain rfl := stripPaddingInfo_false h
    simp
  | true =>
    rw [hpadded] at h
    obtain ⟨hle, hsplit, hgroup⟩ := stripPaddingInfo_true h
    refine ⟨hle, ?_⟩
    have hlength : data.length = contentLen + padCount := by
      have hcount := congrArg List.length hsplit
      simpa [List.length_take_of_le hle] using hcount
    simp only [if_true, List.length_take_of_le hle]
    rcases Nat.eq_zero_or_pos padCount with rfl | hpos
    · rw [Nat.add_zero] at hlength
      rw [← hlength, List.take_length]
    · obtain ⟨height, hmod, hlt⟩ := hgroup (Nat.ne_of_gt hpos)
      have hnone : (8 - data.length % 8) % 8 = 0 := by omega
      have hsome : (8 - contentLen % 8) % 8 = padCount := by omega
      rw [padding, padding, hnone, hsome, List.replicate_zero, List.append_nil]
      exact hsplit

theorem completed_encodeText (data : Bytes) :
    completed alphabet (encodeText alphabet data) = paddedText alphabet data := rfl

theorem stripPaddingInfo_plain {data : Bytes} {contentLen padCount : Nat}
    (h : stripPaddingInfo data alphabet.isPadded = .ok (contentLen, padCount)) :
    EndsPlain PAD (data.take contentLen) := by
  intro j hj
  have hle := (stripPaddingInfo_content h).1
  rw [List.length_take_of_le hle] at hj
  have hcell : (data.take contentLen).getD j 0 = data.getD j 0 := by
    simp [List.getD_eq_getElem?_getD, (by omega : j < contentLen)]
  rw [hcell]
  cases hpadded : alphabet.isPadded with
  | false =>
    rw [hpadded] at h
    obtain rfl := stripPaddingInfo_false h
    unfold stripPaddingInfo at h
    simp only [Bool.false_eq_true, if_false] at h
    split at h
    · cases h
    · next hlast =>
      intro hpad
      exact hlast ⟨by omega, by rw [← hj, Nat.add_sub_cancel]; exact hpad⟩
  | true =>
    rw [hpadded] at h
    obtain ⟨hcount, -, hend⟩ := countTrailingPadding_spec data
    unfold stripPaddingInfo at h
    simp only [if_true] at h
    generalize countTrailingPadding data = count at *
    split at h
    · obtain ⟨rfl, -⟩ : 0 = contentLen ∧ 0 = padCount := by simpa using h
      omega
    · have hok (err : Bool) (hresult : (if err then Except.error DecodeError.invalidPadding
          else Except.ok (data.length - count, count)) = .ok (contentLen, padCount)) :
          err = false ∧ data.length - count = contentLen := by
        cases err with
        | true => cases hresult
        | false =>
          obtain ⟨hlength, -⟩ : data.length - count = contentLen ∧ count = padCount := by
            simpa using hresult
          exact ⟨rfl, hlength⟩
      obtain ⟨hvalid, rfl⟩ := hok _ h
      simp only [Bool.or_eq_false_iff, decide_eq_false_iff_not] at hvalid
      have hother := hend.resolve_left (by omega)
      rwa [show data.length - 1 - count = j by omega] at hother

theorem stripPaddingInfo_of_plain {content : Bytes} (h : EndsPlain PAD content) :
    stripPaddingInfo content alphabet.isPadded = .ok (content.length, 0) := by
  have hlast (hpos : 0 < content.length) : content.getD (content.length - 1) 0 ≠ PAD :=
    h _ (by omega)
  cases alphabet.isPadded with
  | false =>
    have hnot : ¬(content.length > 0 ∧ content.getD (content.length - 1) 0 = PAD) :=
      fun hpad => hlast hpad.1 hpad.2
    simp only [stripPaddingInfo, Bool.false_eq_true, if_false, hnot]
  | true =>
    obtain ⟨hle, hpads, -⟩ := countTrailingPadding_spec content
    have hnone : countTrailingPadding content = 0 := by
      by_contra hne
      exact hlast (by omega) (hpads 0 (by omega))
    unfold stripPaddingInfo
    simp only [if_true, hnone, Nat.sub_zero]
    split
    · next hempty => rw [hempty]
    · simp

variable (alphabet) in
theorem paddedText_eq_append (data : Bytes) :
    ∃ count, paddedText alphabet data = encodeText alphabet data ++ List.replicate count PAD ∧
      stripPaddingInfo (paddedText alphabet data) alphabet.isPadded =
        .ok ((encodeText alphabet data).length, count) := by
  have hne := encodeText_ne_pad alphabet data
  cases hpadded : alphabet.isPadded with
  | false =>
    refine ⟨0, by simp [paddedText, hpadded], ?_⟩
    simp only [paddedText, hpadded, Bool.false_eq_true, if_false]
    exact stripPaddingInfo_false_of_ne hne
  | true =>
    refine ⟨(8 - (encodeText alphabet data).length % 8) % 8,
      by simp [paddedText, hpadded, padding], ?_⟩
    simp only [paddedText, hpadded, if_true, padding]
    apply stripPaddingInfo_true_of_ne hne
    simp only [encodeText_length, charactersOf, List.mem_cons, List.not_mem_nil, or_false]
    omega

end Runs

end Stdx.Base32
