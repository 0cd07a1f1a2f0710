import Stdx.Encoding.Pem
import Stdx.Base64.Bijection
import Mathlib.Data.List.GetD

/-!
# What the PEM encoder writes, the decoder reads

A block survives when its label and headers fit on lines: see `Representable`.
-/

namespace Stdx.Encoding.Pem

open Stdx.Foundation

/-! ## Lines -/

theorem findIdx_isBreak {front : Bytes} (h : ∀ b ∈ front, isBreak b = false)
    (rest : Bytes) : (front ++ 10 :: rest).findIdx isBreak = front.length := by
  induction front with
  | nil => rfl
  | cons octet front ih =>
    rw [List.cons_append, List.findIdx_cons, h octet (List.mem_cons_self ..),
      ih fun b hb => h b (List.mem_cons_of_mem octet hb)]
    rfl

theorem take_line {front : Bytes} (h : ∀ b ∈ front, isBreak b = false) (rest : Bytes) :
    (front ++ 10 :: rest).take ((front ++ 10 :: rest).findIdx isBreak) = front := by
  rw [findIdx_isBreak h, List.take_left]

theorem drop_line {front : Bytes} (h : ∀ b ∈ front, isBreak b = false) (rest : Bytes) :
    (front ++ 10 :: rest).drop (lineAdvance (front ++ 10 :: rest)) = rest := by
  have hadvance : lineAdvance (front ++ 10 :: rest) = front.length + 1 := by
    rw [lineAdvance, findIdx_isBreak h]
    simp
  rw [hadvance]
  simp

/-! ## Markers -/

theorem memmem_append {pattern : Bytes} {octet : UInt8} (hhead : pattern.head? = some octet)
    {front : Bytes} (h : octet ∉ front) (rest : Bytes) :
    memmem pattern (front ++ (pattern ++ rest)) = some front.length := by
  cases pattern with
  | nil => cases hhead
  | cons first pattern =>
    obtain rfl := Option.some.inj hhead
    induction front with
    | nil =>
      rw [List.nil_append, List.cons_append, memmem, if_pos]
      · rfl
      · simp
    | cons other front ih =>
      simp only [List.mem_cons, not_or] at h
      rw [List.cons_append, memmem, if_neg, ih h.2]
      · rfl
      · simp [List.isPrefixOf, h.1]

theorem findPattern_append {pattern : Bytes} {octet : UInt8}
    (hhead : pattern.head? = some octet) {front : Bytes} (h : octet ∉ front) (rest : Bytes) :
    findPattern (front ++ (pattern ++ rest)) pattern = some front.length := by
  have hne : pattern ≠ [] := by rintro rfl; cases hhead
  rw [findPattern, if_neg (by simp [hne]; omega), memmem_append hhead h]

theorem take_marker (label : Bytes) :
    (label ++ MARKER_END).take ((label ++ MARKER_END).length - MARKER_END.length) = label := by
  rw [List.length_append, Nat.add_sub_cancel, List.take_left]

theorem endsInMarker_append {label : Bytes} (h : label.getLast? ≠ some 45) :
    endsInMarker (label ++ MARKER_END) = true := by
  have hlength : (label ++ MARKER_END).length - MARKER_END.length = label.length := by simp
  rw [endsInMarker, hlength, List.drop_left]
  cases label using List.reverseRecOn with
  | nil => decide
  | append_singleton label octet =>
    have hoctet : octet ≠ 45 := by simpa using h
    have hgetD : (label ++ [octet] ++ MARKER_END).getD (label.length + 1 - 1) 0 = octet := by
      rw [Nat.add_sub_cancel, List.append_assoc, List.getD_append_right _ _ _ _ (le_refl _)]
      simp
    have hsize : (label ++ [octet]).length = label.length + 1 := by simp
    rw [hsize, hgetD]
    simp [hoctet]
    omega

theorem unbroken_of_all {marker : Bytes} (h : (marker.all fun b => !isBreak b) = true) :
    ∀ b ∈ marker, isBreak b = false := by
  intro b hb
  simpa using List.all_eq_true.mp h b hb

theorem END_MARKER_unbroken : ∀ b ∈ END_MARKER, isBreak b = false :=
  unbroken_of_all (by decide)

theorem marker_unbroken {label : Bytes} (h : ∀ b ∈ label, isBreak b = false) :
    ∀ b ∈ label ++ MARKER_END, isBreak b = false := by
  have hmarker : ∀ b ∈ MARKER_END, isBreak b = false := unbroken_of_all (by decide)
  intro b hb
  rcases List.mem_append.mp hb with hb | hb
  · exact h b hb
  · exact hmarker b hb

theorem parseBegin_encoded {type : String} (hunbroken : ∀ b ∈ utf8 type, isBreak b = false)
    (hlast : (utf8 type).getLast? ≠ some 45) (rest : Bytes) :
    parseBegin (BEGIN_MARKER ++ (utf8 type ++ MARKER_END ++ 10 :: rest)) = .ok (type, rest) := by
  have hfind := @findPattern_append BEGIN_MARKER 45 rfl [] List.not_mem_nil
    (utf8 type ++ MARKER_END ++ 10 :: rest)
  have hline := marker_unbroken hunbroken
  rw [List.nil_append] at hfind
  rw [parseBegin, hfind]
  simp only [List.length_nil, Nat.zero_add, List.drop_left]
  rw [findLineEnd, if_neg (by simp)]
  simp only [take_line hline, drop_line hline, endsInMarker_append hlast, take_marker,
    fromUtf8_utf8, if_true]

/-! ## Headers -/

theorem findIdx_colon {key : Bytes} (h : ∀ b ∈ key, b ≠ 58) (rest : Bytes) :
    (key ++ 58 :: rest).findIdx (· == 58) = key.length := by
  induction key with
  | nil => rfl
  | cons octet key ih =>
    have hoctet : (octet == 58) = false := by simpa using h octet (List.mem_cons_self ..)
    rw [List.cons_append, List.findIdx_cons, hoctet,
      ih fun b hb => h b (List.mem_cons_of_mem octet hb)]
    rfl

theorem isPrefixOf_append_colon {pattern key rest : Bytes} (h : (58 : UInt8) ∉ pattern)
    (hstart : pattern.isPrefixOf (key ++ 58 :: rest) = true) : pattern <+: key := by
  rw [List.isPrefixOf_iff_prefix] at hstart
  rcases List.prefix_or_prefix_of_prefix hstart (List.prefix_append key (58 :: rest)) with
    hkey | hkey
  · exact hkey
  · obtain ⟨tail, rfl⟩ := hkey
    rw [List.prefix_append_right_inj] at hstart
    cases tail with
    | nil => simp
    | cons octet tail =>
      obtain ⟨more, hmore⟩ := hstart
      obtain ⟨rfl, -⟩ := List.cons.inj hmore
      simp at h

theorem classify_header {key value : Bytes} (hkey : ∀ b ∈ key, b ≠ 58)
    (hend : ¬ END_MARKER <+: key) : classify (key ++ 58 :: 32 :: value) = .header key value := by
  have hclosing : END_MARKER.isPrefixOf (key ++ 58 :: 32 :: value) = false :=
    Bool.eq_false_iff.mpr fun h => hend (isPrefixOf_append_colon (by decide) h)
  have hblank : (key ++ 58 :: 32 :: value).all isAsciiWhitespace = false := by
    rw [List.all_append, List.all_cons, show isAsciiWhitespace 58 = false by decide]
    simp
  rw [classify, hclosing, hblank, findIdx_colon hkey]
  simp

theorem continuationLoop_stop {rest : Bytes}
    (h : isContinuation (rest.take (rest.findIdx isBreak)) = false) (fuel : Nat)
    (value : String) : continuationLoop (fuel + 1) rest value = (value, rest) := by
  rw [continuationLoop]
  simp [h]

/-- The headers a block may have: each on a line of its own, none that looks like an END
line, and none after the first that looks like the continuation of the one before. -/
structure HeadersFit (headers : List (String × String)) : Prop where
  key_plain : ∀ h ∈ headers, ∀ b ∈ utf8 h.1, b ≠ 58 ∧ isBreak b = false
  value_unbroken : ∀ h ∈ headers, ∀ b ∈ utf8 h.2, isBreak b = false
  key_not_end : ∀ h ∈ headers, ¬ END_MARKER <+: utf8 h.1
  key_not_continuation : ∀ h ∈ headers.tail, isContinuation (utf8 h.1) = false

theorem HeadersFit.of_cons {header : String × String} {headers : List (String × String)}
    (h : HeadersFit (header :: headers)) : HeadersFit headers where
  key_plain := fun x hx => h.key_plain x (List.mem_cons_of_mem header hx)
  value_unbroken := fun x hx => h.value_unbroken x (List.mem_cons_of_mem header hx)
  key_not_end := fun x hx => h.key_not_end x (List.mem_cons_of_mem header hx)
  key_not_continuation := fun x hx => h.key_not_continuation x (List.mem_of_mem_tail hx)

theorem headerLine_unbroken {header : String × String} {headers : List (String × String)}
    (h : HeadersFit headers) (hmem : header ∈ headers) :
    ∀ b ∈ utf8 header.1 ++ 58 :: 32 :: utf8 header.2, isBreak b = false := by
  intro b hb
  simp only [List.mem_append, List.mem_cons] at hb
  rcases hb with hb | rfl | rfl | hb
  · exact (h.key_plain header hmem b hb).2
  · decide
  · decide
  · exact h.value_unbroken header hmem b hb

theorem encodeHeader_append (header : String × String) (rest : Bytes) :
    encodeHeader header ++ rest = (utf8 header.1 ++ 58 :: 32 :: utf8 header.2) ++ 10 :: rest := by
  simp [encodeHeader]

theorem not_continuation {header : String × String} {headers : List (String × String)}
    (h : HeadersFit (header :: headers)) (rest : Bytes) :
    isContinuation ((headers.flatMap encodeHeader ++ 10 :: rest).take
      ((headers.flatMap encodeHeader ++ 10 :: rest).findIdx isBreak)) = false := by
  cases headers with
  | nil => rfl
  | cons following headers =>
    have hkey := h.key_not_continuation following (List.mem_cons_self ..)
    rw [List.flatMap_cons, List.append_assoc, encodeHeader_append,
      take_line (headerLine_unbroken h.of_cons (List.mem_cons_self ..))]
    cases hutf8 : utf8 following.1 with
    | nil => rfl
    | cons octet key =>
      rw [hutf8] at hkey
      exact hkey

theorem headerLoop_encoded {headers : List (String × String)} (h : HeadersFit headers)
    (rest : Bytes) (fuel : Nat) (pairs : List (String × String)) :
    headerLoop (headers.length + 1 + fuel) (headers.flatMap encodeHeader ++ 10 :: rest) pairs =
      .ok (pairs ++ headers, .body rest) := by
  induction headers generalizing pairs with
  | nil =>
    rw [Nat.add_right_comm, headerLoop, if_neg (by simp)]
    simp only [List.flatMap_nil]
    rw [take_line (by simp), drop_line (by simp)]
    simp [classify, END_MARKER]
  | cons header headers ih =>
    have hline := headerLine_unbroken h (List.mem_cons_self ..)
    have hclassify := @classify_header _ (utf8 header.2)
      (fun b hb => (h.key_plain header (List.mem_cons_self ..) b hb).1)
      (h.key_not_end header (List.mem_cons_self ..))
    rw [List.length_cons, Nat.add_right_comm, headerLoop, List.flatMap_cons,
      List.append_assoc, encodeHeader_append, if_neg (by simp), take_line hline,
      drop_line hline]
    simp only [hclassify, fromUtf8_utf8]
    rw [continuationLoop_stop (not_continuation h rest)]
    simp only
    rw [ih h.of_cons, List.append_assoc, List.singleton_append]

/-! ## Bodies -/

theorem isBase64Octet_plain (b : UInt8) (h : isBase64Octet b = true) :
    isBreak b = false ∧ b ≠ 45 ∧ b ≠ 58 ∧ isAsciiWhitespace b = false := by
  revert h
  exact forall_octet (p := fun b => isBase64Octet b = true → isBreak b = false ∧ b ≠ 45 ∧
    b ≠ 58 ∧ isAsciiWhitespace b = false) (by decide +kernel) b

theorem wrapLines_plain {text : Bytes} (h : ∀ b ∈ text, isBase64Octet b = true) (count : Nat) :
    (45 : UInt8) ∉ wrapLines count text := by
  induction count generalizing text with
  | zero => simp [wrapLines]
  | succ count ih =>
    rw [wrapLines, List.mem_append, List.mem_cons, not_or, not_or]
    refine ⟨fun hmem => ?_, by decide, ih fun b hb => h b (List.mem_of_mem_drop hb)⟩
    exact (isBase64Octet_plain 45 (h 45 (List.mem_of_mem_take hmem))).2.1 rfl

theorem cleanBase64_append {text : Bytes} (h : ∀ b ∈ text, isBase64Octet b = true)
    (rest : Bytes) : cleanBase64 (text ++ rest) = (cleanBase64 rest).map (text ++ ·) := by
  induction text with
  | nil => cases hrest : cleanBase64 rest <;> simp [hrest, Except.map]
  | cons b text ih =>
    rw [List.cons_append, cleanBase64, if_pos (h b (List.mem_cons_self ..)),
      ih fun c hc => h c (List.mem_cons_of_mem b hc)]
    cases cleanBase64 rest <;> rfl

theorem cleanBase64_wrapLines {text : Bytes} (h : ∀ b ∈ text, isBase64Octet b = true)
    {count : Nat} (hcount : text.length ≤ 64 * count) :
    cleanBase64 (wrapLines count text) = .ok text := by
  induction count generalizing text with
  | zero =>
    rw [List.eq_nil_of_length_eq_zero (show text.length = 0 by omega)]
    rfl
  | succ count ih =>
    rw [wrapLines, cleanBase64_append fun b hb => h b (List.mem_of_mem_take hb)]
    have hbreak : cleanBase64 (10 :: wrapLines count (text.drop 64)) =
        .ok (text.drop 64) := by
      rw [cleanBase64, if_neg (by decide), if_pos (by decide)]
      exact ih (fun b hb => h b (List.mem_of_mem_drop hb)) (by
        rw [List.length_drop]; omega)
    rw [hbreak]
    exact congrArg Except.ok (List.take_append_drop 64 text)

theorem findEnd_encoded {type : String} (hunbroken : ∀ b ∈ utf8 type, isBreak b = false)
    (hlast : (utf8 type).getLast? ≠ some 45) {text : Bytes} (htext : (45 : UInt8) ∉ text)
    (rest : Bytes) (fuel : Nat) :
    findEnd type (fuel + 1)
      (text ++ (END_MARKER ++ (utf8 type ++ MARKER_END ++ 10 :: rest))) 0 =
        .ok text.length := by
  have hline : ∀ b ∈ END_MARKER ++ (utf8 type ++ MARKER_END), isBreak b = false := by
    have hmarker := END_MARKER_unbroken
    intro b hb
    rcases List.mem_append.mp hb with hb | hb
    · exact hmarker b hb
    · exact marker_unbroken hunbroken b hb
  rw [findEnd, if_neg (by simp [END_MARKER]), List.drop_zero,
    findPattern_append (show END_MARKER.head? = some 45 from rfl) htext]
  simp only [Nat.zero_add, List.drop_left]
  rw [← List.append_assoc END_MARKER, take_line hline, List.drop_left,
    endsInMarker_append hlast, take_marker]
  simp

theorem isBase64Octet_character (v : UInt8) :
    isBase64Octet (Base64.sextetToBase64Char v .standard) = true := by
  obtain ⟨s, hs, hlow, hhigh⟩ := Base64.sextetToBase64Char_range .standard v
  have hsegments : (Base64.characters .standard).inverse.segments =
      [⟨65, 90, 0⟩, ⟨97, 122, 26⟩, ⟨48, 57, 52⟩, ⟨43, 43, 62⟩, ⟨47, 47, 63⟩] := rfl
  rw [hsegments] at hs
  simp only [List.mem_cons, List.not_mem_nil, or_false] at hs
  rcases hs with rfl | rfl | rfl | rfl | rfl
  · simp [isBase64Octet, hlow, hhigh]
  · simp [isBase64Octet, hlow, hhigh]
  · simp [isBase64Octet, hlow, hhigh]
  · simp [isBase64Octet, UInt8.le_antisymm hhigh hlow]
  · simp [isBase64Octet, UInt8.le_antisymm hhigh hlow]

theorem paddedText_octets (data : Bytes) :
    ∀ b ∈ Base64.paddedText .standard data, isBase64Octet b = true := by
  obtain ⟨count, happend, -⟩ := Base64.paddedText_eq_append .standard data
  intro b hb
  rw [happend, List.mem_append] at hb
  rcases hb with hb | hb
  · refine Base64.encodeText_forall (p := fun b => isBase64Octet b = true) (fun v => ?_)
      data b hb
    exact isBase64Octet_character v
  · rw [List.eq_of_mem_replicate hb]
    decide

theorem paddedText_fits {T : Target} {data : Bytes}
    (h : data.length < 2 ^ (T.usizeBits - 1)) :
    (Base64.paddedText .standard data).length < 2 ^ T.usizeBits := by
  have hpow := two_pow_usizeBits T
  have hlarge := le_two_pow_usizeBits T
  have hpadded : Base64.Alphabet.standard.isPadded = true := rfl
  rw [Base64.paddedText_length, Base64.encodedRestLength]
  simp only [hpadded, if_true]
  split <;> omega

/-! ## Blocks -/

/-- A block that fits on lines, with contents whose text the encoder of the build writes.  A
`Vec` holds fewer than `2 ^ (usize::BITS - 1)` octets. -/
structure Representable (unit : VectorUnit) (T : Target) (block : Block) : Prop where
  label_unbroken : ∀ b ∈ utf8 block.type, isBreak b = false
  label_last : (utf8 block.type).getLast? ≠ some 45
  headers_fit : HeadersFit block.headers
  contents_fit : block.contents.length < 2 ^ (T.usizeBits - 1)
  contents_written : Base64.WritesText unit block.contents

def encodedBody (contents : Bytes) : Bytes :=
  let text := Base64.paddedText .standard contents
  wrapLines ((text.length + 63) / 64) text

def encodedRest (block : Block) (rest : Bytes) : Bytes :=
  block.headers.flatMap encodeHeader ++ ((if block.headers = [] then [] else [10]) ++
    (encodedBody block.contents ++
      (END_MARKER ++ (utf8 block.type ++ MARKER_END ++ 10 :: rest))))

theorem encodeBlock_eq {unit : VectorUnit} {T : Target} {block : Block}
    (h : Representable unit T block) :
    ∃ text, encodeBlock unit T block = some text ∧ ∀ rest, text ++ rest =
      BEGIN_MARKER ++ (utf8 block.type ++ MARKER_END ++ 10 :: encodedRest block rest) := by
  refine ⟨BEGIN_MARKER ++ utf8 block.type ++ MARKER_END ++ [10] ++
    block.headers.flatMap encodeHeader ++ (if block.headers = [] then [] else [10]) ++
    encodedBody block.contents ++ END_MARKER ++ utf8 block.type ++ MARKER_END ++ [10],
    ?_, fun rest => ?_⟩
  · rw [encodeBlock, Base64.encode_eq unit T h.contents_fit,
      (Base64.writtenText_eq_iff unit block.contents).mpr h.contents_written]
    rfl
  · simp only [encodedRest, List.append_assoc, List.nil_append, List.cons_append]

theorem endLine_unbroken {label : Bytes} (h : ∀ b ∈ label, isBreak b = false) :
    ∀ b ∈ END_MARKER ++ (label ++ MARKER_END), isBreak b = false := by
  have hmarker := END_MARKER_unbroken
  intro b hb
  rcases List.mem_append.mp hb with hb | hb
  · exact hmarker b hb
  · exact marker_unbroken h b hb

theorem parseBody_encoded {unit : VectorUnit} {T : Target} {block : Block}
    (h : Representable unit T block) (headers : List (String × String)) (rest : Bytes) :
    parseBody unit T block.type headers (encodedBody block.contents ++
        (END_MARKER ++ (utf8 block.type ++ MARKER_END ++ 10 :: rest))) =
      .ok (⟨block.type, headers, block.contents⟩, rest) := by
  have htext := paddedText_octets block.contents
  have hplain : (45 : UInt8) ∉ encodedBody block.contents := wrapLines_plain htext _
  have hclean : cleanBase64 (encodedBody block.contents) =
      .ok (Base64.paddedText .standard block.contents) :=
    cleanBase64_wrapLines htext (by omega)
  have hfits : (Base64.paddedText .standard block.contents).length < 2 ^ T.usizeBits :=
    paddedText_fits h.contents_fit
  rw [parseBody, findEnd_encoded h.label_unbroken h.label_last hplain]
  simp only [List.take_left, List.drop_left]
  rw [hclean]
  simp only [Base64.decode_paddedText unit T hfits]
  rw [← List.append_assoc END_MARKER, drop_line (endLine_unbroken h.label_unbroken)]

theorem classify_base64 {line : Bytes} (hne : line ≠ [])
    (h : ∀ b ∈ line, isBase64Octet b = true) : classify line = .other := by
  obtain ⟨octet, rest, rfl⟩ := List.exists_cons_of_ne_nil hne
  obtain ⟨-, hdash, -, hspace⟩ := isBase64Octet_plain octet (h octet (List.mem_cons_self ..))
  have hclosing : END_MARKER.isPrefixOf (octet :: rest) = false := by
    simp [END_MARKER, List.isPrefixOf, hdash.symm]
  have hblank : (octet :: rest).all isAsciiWhitespace = false := by
    rw [List.all_cons, hspace, Bool.false_and]
  have hcolon : (octet :: rest).findIdx (· == 58) = (octet :: rest).length := by
    refine List.findIdx_eq_length.mpr fun b hb => ?_
    simpa using (isBase64Octet_plain b (h b hb)).2.2.1
  rw [classify, hclosing, hblank, hcolon]
  simp

theorem paddedText_ne_nil {contents : Bytes} (h : contents ≠ []) :
    Base64.paddedText .standard contents ≠ [] := by
  have hpos := List.length_pos_iff.mpr h
  intro hnil
  obtain ⟨count, happend, -⟩ := Base64.paddedText_eq_append .standard contents
  rw [hnil] at happend
  have htext := (List.append_eq_nil_iff.mp happend.symm).1
  have hlength := Base64.encodeText_length .standard contents
  rw [htext, List.length_nil] at hlength
  split at hlength <;> omega

theorem headerLoop_no_headers {label contents : Bytes}
    (hlabel : ∀ b ∈ label, isBreak b = false) (rest : Bytes) (fuel : Nat) :
    headerLoop (fuel + 1)
        (encodedBody contents ++ (END_MARKER ++ (label ++ MARKER_END ++ 10 :: rest))) [] =
      if contents = [] then .ok ([], .closed rest)
      else .ok ([], .body (encodedBody contents ++
        (END_MARKER ++ (label ++ MARKER_END ++ 10 :: rest)))) := by
  have hend := endLine_unbroken hlabel
  split
  · next hempty =>
    subst hempty
    rw [show encodedBody [] = [] from rfl, List.nil_append, ← List.append_assoc END_MARKER,
      headerLoop, if_neg (by simp), take_line hend, drop_line hend]
    simp [classify]
  · next hne =>
    obtain ⟨text, htext⟩ : ∃ text, Base64.paddedText .standard contents = text := ⟨_, rfl⟩
    have hoctets := paddedText_octets contents
    have hpos := List.length_pos_iff.mpr (paddedText_ne_nil hne)
    rw [htext] at hoctets hpos
    have hbody : encodedBody contents =
        text.take 64 ++ 10 :: wrapLines ((text.length - 1) / 64) (text.drop 64) := by
      rw [encodedBody, htext, show (text.length + 63) / 64 = (text.length - 1) / 64 + 1 by
        omega, wrapLines]
    have hline : ∀ b ∈ text.take 64, isBase64Octet b = true :=
      fun b hb => hoctets b (List.mem_of_mem_take hb)
    have hfirst : text.take 64 ≠ [] := by
      intro hnil
      have hzero := congrArg List.length hnil
      rw [List.length_take, List.length_nil] at hzero
      omega
    rw [hbody, List.append_assoc, List.cons_append, headerLoop, if_neg (by simp),
      take_line fun b hb => (isBase64Octet_plain b (hline b hb)).1]
    simp only [classify_base64 hfirst hline]

theorem length_le_flatMap_encodeHeader (headers : List (String × String)) :
    headers.length ≤ (headers.flatMap encodeHeader).length := by
  induction headers with
  | nil => simp
  | cons header headers ih =>
    rw [List.flatMap_cons, List.length_append, List.length_cons, encodeHeader]
    simp only [List.length_append, List.length_cons, List.length_nil]
    omega

theorem parseOneBlock_encoded {unit : VectorUnit} {T : Target} {block : Block}
    (h : Representable unit T block) (rest : Bytes) :
    parseOneBlock unit T (BEGIN_MARKER ++
        (utf8 block.type ++ MARKER_END ++ 10 :: encodedRest block rest)) =
      .ok (block, rest) := by
  obtain ⟨type, headers, contents⟩ := block
  rw [parseOneBlock, parseBegin_encoded h.label_unbroken h.label_last]
  simp only
  by_cases hheaders : headers = []
  · subst hheaders
    have hloop := @headerLoop_no_headers _ contents h.label_unbroken rest
      (encodedRest ⟨type, [], contents⟩ rest).length
    rw [show encodedRest ⟨type, [], contents⟩ rest = encodedBody contents ++
      (END_MARKER ++ (utf8 type ++ MARKER_END ++ 10 :: rest)) from rfl] at hloop ⊢
    rw [hloop]
    split_ifs with hempty
    · rw [hempty]
    · exact parseBody_encoded h [] rest
  · obtain ⟨fuel, hfuel⟩ : ∃ fuel, (encodedRest ⟨type, headers, contents⟩ rest).length + 1 =
        headers.length + 1 + fuel := by
      refine ⟨_, (Nat.add_sub_of_le (Nat.succ_le_succ ?_)).symm⟩
      have := length_le_flatMap_encodeHeader headers
      simp only [encodedRest, List.length_append]
      omega
    have hloop := headerLoop_encoded h.headers_fit (encodedBody contents ++
      (END_MARKER ++ (utf8 type ++ MARKER_END ++ 10 :: rest))) fuel []
    rw [hfuel, encodedRest, if_neg hheaders, List.singleton_append, hloop]
    simp only [List.nil_append]
    exact parseBody_encoded h headers rest

/-! ## Lists of blocks -/

theorem items_encoded {unit : VectorUnit} {T : Target} {blocks : List Block}
    (h : ∀ block ∈ blocks, Representable unit T block) :
    ∃ text, encode unit T blocks = some text ∧ blocks.length ≤ text.length ∧
      ∀ fuel, items unit T (blocks.length + 1 + fuel) text = blocks.map .ok := by
  induction blocks with
  | nil =>
    refine ⟨[], rfl, le_refl _, fun fuel => ?_⟩
    rw [List.length_nil, Nat.zero_add, Nat.add_comm, items]
    rfl
  | cons block blocks ih =>
    obtain ⟨front, hfront, happend⟩ := encodeBlock_eq (h block (List.mem_cons_self ..))
    obtain ⟨rest, hrest, hlength, hitems⟩ := ih fun b hb => h b (List.mem_cons_of_mem block hb)
    have hparse := parseOneBlock_encoded (h block (List.mem_cons_self ..)) rest
    rw [← happend] at hparse
    have hne : front ++ rest ≠ [] := by
      rw [happend]
      exact List.cons_ne_nil _ _
    have hfront_pos : 0 < front.length := by
      have hnil := happend []
      rw [List.append_nil] at hnil
      rw [hnil]
      exact Nat.succ_pos _
    refine ⟨front ++ rest, ?_, ?_, fun fuel => ?_⟩
    · rw [encode, hfront, hrest]
      rfl
    · rw [List.length_cons, List.length_append]
      omega
    · rw [List.length_cons, Nat.add_right_comm, items, next, if_neg hne, hparse]
      simp only [hitems, List.map_cons]

/-- Decoding what `encode` writes of representable blocks gives the blocks back, in order
and without an error item. -/
theorem decode_encode (unit : VectorUnit) (T : Target) (blocks : List Block)
    (h : ∀ block ∈ blocks, Representable unit T block) :
    ∃ text, encode unit T blocks = some text ∧ decode unit T text = blocks.map .ok := by
  obtain ⟨text, hencode, hlength, hitems⟩ := items_encoded h
  refine ⟨text, hencode, ?_⟩
  obtain ⟨fuel, hfuel⟩ := Nat.exists_eq_add_of_le (Nat.succ_le_succ hlength)
  have hsize : text.length + 1 = blocks.length + 1 + fuel := hfuel
  rw [decode, hsize]
  exact hitems fuel

theorem decode_encode_header_only :
    ∃ text, encode .avx2 ⟨64, by decide⟩ [⟨"A", [("k", "v")], []⟩, ⟨"B", [], [1]⟩] = some text ∧
      decode .avx2 ⟨64, by decide⟩ text = [.ok ⟨"A", [("k", "v")], []⟩, .ok ⟨"B", [], [1]⟩] :=
  decode_encode .avx2 ⟨64, by decide⟩ [⟨"A", [("k", "v")], []⟩, ⟨"B", [], [1]⟩] (by
    have hA : Representable .avx2 ⟨64, by decide⟩ ⟨"A", [("k", "v")], []⟩ :=
      ⟨by decide +kernel, by decide, ⟨by decide +kernel, by decide +kernel,
        by decide +kernel, by decide +kernel⟩, by decide +kernel,
        fun i hi => absurd hi i.not_lt_zero⟩
    have hB : Representable .avx2 ⟨64, by decide⟩ ⟨"B", [], [1]⟩ :=
      ⟨by decide +kernel, by decide, ⟨by decide +kernel, by decide +kernel,
        by decide +kernel, by decide +kernel⟩, by decide +kernel,
        fun i hi => absurd hi i.not_lt_zero⟩
    simp [hA, hB])

/-- A second header whose key starts with a space is read as part of the first one. -/
theorem second_header_lost :
    (encode .scalar ⟨64, by decide⟩ [⟨"A", [("k", "v"), (" l", "w")], []⟩]).map
        (decode .scalar ⟨64, by decide⟩) ≠
      some [.ok ⟨"A", [("k", "v"), (" l", "w")], []⟩] := by
  decide +kernel

end Stdx.Encoding.Pem
