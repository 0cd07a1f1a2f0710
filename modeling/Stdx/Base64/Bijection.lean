import Stdx.Base64.Dispatch

/-!
# Base64 as a bijection

Both directions of the codec, for every build.
-/

namespace Stdx.Base64

open Stdx.Foundation

variable {alphabet : Alphabet}

/-! ## Texts -/

theorem readText_of_decodeText (unit : VectorUnit) {content data : Bytes}
    (h : decodeText alphabet content = some data) : readText unit alphabet content = some data := by
  have hle := decodeGroups_le unit content.length
  rw [decodeText_groups alphabet hle] at h
  have hsome : (inGroups 4 (decodeText alphabet) (decodeGroups unit content.length)
      content).isSome := by
    cases hfront : inGroups 4 (decodeText alphabet) (decodeGroups unit content.length) content with
    | none => simp [hfront] at h
    | some front => rfl
  rw [readText, readBy, ← h, inGroups_congr hle fun i hi => ?_]
  have hgroup : (group 4 i content).length = 4 := group_length (by omega)
  obtain ⟨out, hout⟩ := Option.isSome_iff_exists.mp (inGroups_isSome_iff.mp hsome i hi)
  obtain ⟨c0, c1, c2, c3, hchars⟩ := eq_of_length_four hgroup
  rw [hchars] at hout ⊢
  rw [decodeLane_of_decodeText unit hout, hout]

theorem readText_encodeText (unit : VectorUnit) (data : Bytes) :
    readText unit alphabet (encodeText alphabet data) = some data :=
  readText_of_decodeText unit (decodeText_encodeText alphabet data)

theorem decode_paddedText (unit : VectorUnit) (T : Target) {data : Bytes}
    (hfits : (paddedText alphabet data).length < 2 ^ T.usizeBits) :
    decode unit T (paddedText alphabet data) alphabet = .ok data := by
  obtain ⟨count, happend, hstrips⟩ := paddedText_eq_append alphabet data
  exact (decode_iff unit T hfits).mpr ⟨_, count, happend, hstrips,
    (capacity_encodeText alphabet data).2, readText_encodeText unit data⟩

/-! ## What a build takes, and what it writes back -/

/-- The content is made of groups that the kernel takes, and of a text. -/
structure Taken (unit : VectorUnit) (alphabet : Alphabet) (content : Bytes) : Prop where
  whole : content.length % 4 ≠ 1
  groups : ∀ i < decodeGroups unit content.length, TakesGroup unit alphabet (group 4 i content)
  rest : ∃ data, content.drop (4 * decodeGroups unit content.length) = encodeText alphabet data

theorem taken_iff {unit : VectorUnit} {content : Bytes} :
    Taken unit alphabet content ↔
      content.length % 4 ≠ 1 ∧ (readText unit alphabet content).isSome := by
  have hle := decodeGroups_le unit content.length
  have hgroups : (inGroups 4 (decodeLane unit alphabet) (decodeGroups unit content.length)
      content).isSome ↔
      ∀ i < decodeGroups unit content.length, TakesGroup unit alphabet (group 4 i content) := by
    rw [inGroups_isSome_iff]
    refine forall₂_congr fun i hi => ?_
    have hgroup : (group 4 i content).length = 4 := group_length (by omega)
    obtain ⟨c0, c1, c2, c3, hchars⟩ := eq_of_length_four hgroup
    rw [hchars]
    exact decodeLane_isSome unit alphabet c0 c1 c2 c3
  have hrest : (decodeText alphabet
      (content.drop (4 * decodeGroups unit content.length))).isSome ↔
      ∃ data, content.drop (4 * decodeGroups unit content.length) = encodeText alphabet data := by
    rw [Option.isSome_iff_exists]
    refine exists_congr fun data => ⟨fun h => (encodeText_of_decodeText alphabet h).symm, ?_⟩
    intro h
    rw [h, decodeText_encodeText]
  have hboth : (readText unit alphabet content).isSome ↔
      (inGroups 4 (decodeLane unit alphabet) (decodeGroups unit content.length) content).isSome ∧
        (decodeText alphabet (content.drop (4 * decodeGroups unit content.length))).isSome := by
    rw [readText, readBy]
    cases inGroups 4 (decodeLane unit alphabet) (decodeGroups unit content.length) content with
    | none => simp
    | some front =>
      cases decodeText alphabet (content.drop (4 * decodeGroups unit content.length)) with
      | none => simp
      | some back => simp
  rw [hboth, hgroups, hrest]
  exact ⟨fun h => ⟨h.whole, h.groups, h.rest⟩, fun h => ⟨h.1, h.2.1, h.2.2⟩⟩

/-- A content in the characters of the alphabet that is taken is a text. -/
theorem Taken.text {unit : VectorUnit} {content : Bytes} (h : Taken unit alphabet content)
    (hchars : ∀ c ∈ content, (sextet? alphabet c).isSome) :
    ∃ data, decodeText alphabet content = some data := by
  have hle := decodeGroups_le unit content.length
  have hsome : (inGroups 4 (decodeText alphabet) (decodeGroups unit content.length)
      content).isSome := by
    rw [inGroups_isSome_iff]
    intro i hi
    have hgroup : (group 4 i content).length = 4 := group_length (by omega)
    obtain ⟨c0, c1, c2, c3, heq⟩ := eq_of_length_four hgroup
    rw [heq, decodeText_group, readLane_isSome, ← heq]
    exact fun c hc => hchars c (List.mem_of_mem_drop (List.mem_of_mem_take hc))
  obtain ⟨front, hfront⟩ := Option.isSome_iff_exists.mp hsome
  obtain ⟨back, hback⟩ := h.rest
  refine ⟨front ++ back, ?_⟩
  rw [decodeText_groups alphabet hle, hfront, hback, decodeText_encodeText]
  rfl

theorem sextet?_character (v : UInt8) :
    (sextet? alphabet (sextetToBase64Char v alphabet)).isSome := by
  have hlow : sextetToBase64Char (v &&& 0x3f) alphabet = sextetToBase64Char v alphabet := by
    rw [sextetToBase64Char_eq, sextetToBase64Char_eq, UInt8.and_assoc]
    rfl
  rw [← hlow, sextet?_char alphabet (sextet_lt_fourth v)]
  rfl

theorem writtenText_characters (unit : VectorUnit) (data : Bytes) :
    ∀ c ∈ writtenText unit alphabet data, (sextet? alphabet c).isSome := by
  intro c hc
  rw [writtenText, List.mem_append] at hc
  rcases hc with hc | hc
  · refine forall_mapGroups (p := fun c => (sextet? alphabet c).isSome)
      (encodeGroups_le unit data.length) (fun octets h b hb => ?_) c hc
    obtain ⟨b0, b1, b2, rfl⟩ := eq_of_length_three h
    rw [encodeLane_eq] at hb
    obtain ⟨v, -, rfl⟩ := List.mem_map.mp hb
    exact sextet?_character v
  · exact encodeText_forall (p := fun c => (sextet? alphabet c).isSome) sextet?_character _ c hc

theorem writtenText_length (unit : VectorUnit) (data : Bytes) :
    (writtenText unit alphabet data).length = (encodeText alphabet data).length := by
  have hle := encodeGroups_le unit data.length
  rw [encodeText_groups alphabet hle, writtenText, List.length_append, List.length_append,
    mapGroups_length hle fun _ => encodeLane_length alphabet unit,
    mapGroups_length (m := 4) hle fun octets h => by rw [encodeText_length, h]; rfl]

theorem encodeText_length_capacity {length : Nat} {data : Bytes} (h : length % 4 ≠ 1)
    (hdata : data.length = capacity length) : (encodeText alphabet data).length = length := by
  rw [encodeText_length, hdata]
  unfold capacity
  split <;> omega

theorem readText_length {unit : VectorUnit} {content data : Bytes}
    (h : readText unit alphabet content = some data) :
    data.length = capacity content.length := by
  have hle := decodeGroups_le unit content.length
  simp only [readText, readBy, Option.bind_eq_bind, Option.bind_eq_some_iff] at h
  obtain ⟨front, hfront, back, hback, hdata⟩ := h
  obtain rfl := Option.some.inj hdata
  have hlength := inGroups_length hle (fun _ _ => decodeLane_length_of alphabet) hfront
  have hrest := congrArg List.length (encodeText_of_decodeText alphabet hback)
  rw [encodeText_length, List.length_drop] at hrest
  rw [List.length_append, hlength]
  unfold capacity
  split at hrest <;> omega

theorem completed_inj {x y : Bytes} (hlength : x.length = y.length)
    (h : completed alphabet x = completed alphabet y) : x = y := by
  unfold completed at h
  split at h
  · exact (List.append_inj h hlength).1
  · exact h

/-- What `decode` takes of the text, `encode` writes back. -/
def Faithful (unit : VectorUnit) (alphabet : Alphabet) (text : Bytes) : Prop :=
  ∀ content count, text = content ++ List.replicate count pad → Strips alphabet content count →
    Taken unit alphabet content →
    ∃ data, content = encodeText alphabet data ∧ WritesText unit data

theorem faithful_iff (unit : VectorUnit) (T : Target) {text : Bytes}
    (hfits : text.length < 2 ^ (T.usizeBits - 1)) :
    (∀ data, decode unit T text alphabet = .ok data →
      encode unit T data alphabet = some (completed alphabet text)) ↔
      Faithful unit alphabet text := by
  have hpow := two_pow_usizeBits T
  have hfits' : text.length < 2 ^ T.usizeBits := by omega
  have hdecode {data : Bytes} := @decode_iff alphabet unit T text data hfits'
  constructor
  · intro h content count htext hstrips htaken
    obtain ⟨hlone, hsome⟩ := taken_iff.mp htaken
    obtain ⟨data, hread⟩ := Option.isSome_iff_exists.mp hsome
    have hlength := readText_length hread
    have hsmall : data.length < 2 ^ (T.usizeBits - 1) := by
      rw [htext, List.length_append] at hfits
      unfold capacity at hlength
      omega
    have hwritten := h data (hdecode.mpr ⟨content, count, htext, hstrips, hlone, hread⟩)
    rw [encode_eq unit T hsmall, htext, completed_of_strips hstrips] at hwritten
    -- what is written back has the length of the content, so it is the content
    have hcontent : writtenText unit alphabet data = content :=
      completed_inj ((writtenText_length unit data).trans
        (encodeText_length_capacity hlone hlength)) (Option.some.inj hwritten)
    obtain ⟨other, hother⟩ := htaken.text (hcontent ▸ writtenText_characters unit data)
    obtain rfl : data = other :=
      Option.some.inj (hread.symm.trans (readText_of_decodeText unit hother))
    have hencoded := encodeText_of_decodeText alphabet hother
    exact ⟨data, hencoded.symm,
      (writtenText_eq_iff unit data).mp (hcontent.trans hencoded.symm)⟩
  · intro h data hrun
    obtain ⟨content, count, htext, hstrips, hlone, hread⟩ := hdecode.mp hrun
    have htaken := taken_iff.mpr ⟨hlone, by rw [hread]; rfl⟩
    obtain ⟨other, hcontent, hwrites⟩ := h content count htext hstrips htaken
    obtain rfl : data = other := by
      rw [hcontent, readText_encodeText] at hread
      exact (Option.some.inj hread).symm
    have hsmall : data.length < 2 ^ (T.usizeBits - 1) := by
      have hlength := readText_length hread
      rw [htext, List.length_append] at hfits
      unfold capacity at hlength
      omega
    rw [encode_eq unit T hsmall, (writtenText_eq_iff unit data).mpr hwrites, ← hcontent, htext,
      completed_of_strips hstrips]

theorem faithful_scalar (text : Bytes) : Faithful .scalar alphabet text := by
  intro content count _ _ htaken
  obtain ⟨data, hdata⟩ := htaken.rest
  exact ⟨data, hdata, fun i hi => absurd hi i.not_lt_zero⟩

/-- Under the standard alphabets NEON and AVX2 take texts only. -/
theorem readText_standard {unit : VectorUnit} (hunit : unit ≠ .simd128)
    (hurl : alphabet.isUrl = false) (content : Bytes) :
    readText unit alphabet content = decodeText alphabet content := by
  have hle := decodeGroups_le unit content.length
  rw [decodeText_groups alphabet hle, readText, readBy, inGroups_congr hle fun i hi => ?_]
  have hgroup : (group 4 i content).length = 4 := group_length (by omega)
  obtain ⟨c0, c1, c2, c3, hchars⟩ := eq_of_length_four hgroup
  rw [hchars]
  exact decodeLane_standard hunit hurl c0 c1 c2 c3

theorem faithful_neon (hurl : alphabet.isUrl = false) (text : Bytes) :
    Faithful .neon alphabet text := by
  intro content count _ _ htaken
  obtain ⟨data, hread⟩ := Option.isSome_iff_exists.mp (taken_iff.mp htaken).2
  rw [readText_standard (by decide) hurl] at hread
  exact ⟨data, (encodeText_of_decodeText alphabet hread).symm, fun _ _ => trivial⟩

/-! ## Texts without padding -/

/-- A build reads the text as `data`. -/
structure Reads (unit : VectorUnit) (alphabet : Alphabet) (text data : Bytes) : Prop where
  plain : EndsPlain pad text
  whole : text.length % 4 ≠ 1
  value : readText unit alphabet text = some data

section Unpadded

variable {unit : VectorUnit} {text data : Bytes}

theorem Reads.strips (h : Reads unit alphabet text data) : Strips alphabet text 0 :=
  ⟨h.plain, .inl rfl⟩

theorem Reads.unique {other : Bytes} (h : Reads unit alphabet text data)
    (hother : Reads unit alphabet text other) : other = data :=
  Option.some.inj (hother.value.symm.trans h.value)

theorem Reads.capacity_eq (h : Reads unit alphabet text data) :
    capacity text.length = data.length :=
  (readText_length h.value).symm

variable (alphabet) in
theorem reads_encodeText (unit : VectorUnit) (data : Bytes) :
    Reads unit alphabet (encodeText alphabet data) data :=
  ⟨endsPlain_of_ne (encodeText_ne_pad alphabet data), (capacity_encodeText alphabet data).2,
    readText_encodeText unit data⟩

theorem Reads.of_scalar (h : Reads .scalar alphabet text data) :
    text = encodeText alphabet data := by
  have htext : decodeText alphabet text = some data := by
    simpa [readText, readBy, decodeGroups, inGroups] using h.value
  exact (encodeText_of_decodeText alphabet htext).symm

theorem decode_ok_iff (T : Target) (hpadded : alphabet.isPadded = false)
    (hfits : text.length < 2 ^ T.usizeBits) :
    decode unit T text alphabet = .ok data ↔ Reads unit alphabet text data := by
  rw [decode_iff unit T hfits]
  constructor
  · rintro ⟨content, count, htext, hstrips, hlone, hread⟩
    obtain rfl : count = 0 := hstrips.pads.resolve_right fun h => by simp [hpadded] at h
    obtain rfl : text = content := by simpa using htext
    exact ⟨hstrips.plain, hlone, hread⟩
  · intro h
    exact ⟨text, 0, by simp, h.strips, h.whole, h.value⟩

theorem decodeInto_ok {T : Target} (hpadded : alphabet.isPadded = false) {output out : Bytes}
    {size : Nat} (h : decodeInto unit T output text alphabet = (.ok size, out)) :
    Reads unit alphabet text (out.take size) ∧ size ≤ output.length ∧
      (out.take size).length = size := by
  cases hstrip : stripPaddingInfo text alphabet.isPadded with
  | error error => simp [decodeInto, hstrip] at h
  | ok result =>
    obtain ⟨contentLen, count⟩ := result
    obtain ⟨content, htext, rfl, hstrips⟩ := stripPaddingInfo_iff.mp hstrip
    obtain rfl : count = 0 := hstrips.pads.resolve_right fun h => by simp [hpadded] at h
    obtain rfl : text = content := by simpa using htext
    cases hdecoded : decodedLength T text.length with
    | error error => simp [decodeInto, hstrip, hdecoded] at h
    | ok computed =>
      obtain ⟨rfl, hlone, hfits⟩ := decodedLength_ok hdecoded
      by_cases hshort : output.length < capacity text.length
      · simp [decodeInto, hstrip, hdecoded, hshort] at h
      · obtain ⟨out', ⟨octets, hread, hvalue, hlength, -, hrun⟩ | ⟨-, hrun⟩⟩ :=
          decodeInto_eq unit T hstrips hlone hfits (Nat.not_lt.mp hshort)
        · rw [← htext, h] at hrun
          obtain ⟨hsize, rfl⟩ := Prod.mk.inj hrun
          obtain rfl := Except.ok.inj hsize
          exact ⟨⟨hstrips.plain, hlone, by rw [hread, hvalue]⟩, Nat.not_lt.mp hshort,
            by rw [hvalue, hlength]⟩
        · rw [← htext, h] at hrun
          cases hrun

theorem Reads.decodeInto_eq {T : Target} (h : Reads unit alphabet text data) {output : Bytes}
    (hroom : data.length ≤ output.length) (hfits : data.length < 2 ^ T.usizeBits) :
    ∃ out, decodeInto unit T output text alphabet = (.ok data.length, out) ∧
      out.take data.length = data := by
  have hcapacity := h.capacity_eq
  obtain ⟨out, ⟨octets, hread, hvalue, -, -, hrun⟩ | ⟨hnone, -⟩⟩ :=
    Base64.decodeInto_eq unit T h.strips h.whole (by omega) (by omega : _ ≤ output.length)
  · rw [hcapacity] at hvalue hrun
    rw [List.replicate_zero, List.append_nil] at hrun
    exact ⟨out, hrun, hvalue.trans (Option.some.inj (hread.symm.trans h.value))⟩
  · rw [h.value] at hnone
    cases hnone

end Unpadded

/-! ## Both directions -/

/-- Encoding then decoding in constant time is the identity on every octet string. -/
theorem constantTime_inverse (T : Target) {data output decoded : Bytes}
    (hfits : data.length < 2 ^ (T.usizeBits - 1))
    (hsize : encodedLength T data.length alphabet.isPadded = some output.length)
    (hroom : data.length ≤ decoded.length) :
    ∃ text decoded',
      encodeIntoConstantTime T output data alphabet = (.ok (), text) ∧
      decodeIntoConstantTime T decoded text alphabet = (.ok data.length, decoded') ∧
      decoded'.take data.length = data := by
  have hpow := two_pow_usizeBits T
  rw [encodedLength_eq alphabet T hfits, Option.some.injEq] at hsize
  obtain ⟨hcapacity, hlone⟩ := capacity_encodeText alphabet data
  obtain ⟨count, happend, hstrips⟩ := paddedText_eq_append alphabet data
  have hcontent : ContentOf (paddedText alphabet data) (encodeText alphabet data) := by
    rw [happend]
    exact contentOf_append _ _
  obtain ⟨decoded', -, hrun⟩ := decodeIntoConstantTime_eq T (o := decoded)
    (stripPaddingInfo_iff.mpr ⟨_, happend, rfl, hstrips⟩) hcontent hlone (by omega) (by omega)
  rw [hcapacity, decodeText_encodeText] at hrun
  rcases hrun with ⟨htext, hrun⟩ | ⟨htext, -⟩
  · exact ⟨_, decoded', encodeIntoConstantTime_eq _ T hfits hsize.symm, hrun,
      (Option.some.inj htext).symm⟩
  · cases htext

/-- The constant-time functions are inverse to each other, and `encode` writes back what
`decode` accepts exactly for the texts on which the kernels are faithful. -/
theorem codec_bijective_iff (unit : VectorUnit) (T : Target) (alphabet : Alphabet) :
    (∀ data output decoded : Bytes, data.length < 2 ^ (T.usizeBits - 1) →
      encodedLength T data.length alphabet.isPadded = some output.length →
      data.length ≤ decoded.length →
      ∃ text decoded',
        encodeIntoConstantTime T output data alphabet = (.ok (), text) ∧
        decodeIntoConstantTime T decoded text alphabet =
          (.ok data.length, decoded') ∧
        decoded'.take data.length = data) ∧
    ∀ text : Bytes, text.length < 2 ^ (T.usizeBits - 1) →
      ((∀ data, decode unit T text alphabet = .ok data →
        encode unit T data alphabet = some (completed alphabet text)) ↔
        Faithful unit alphabet text) :=
  ⟨fun _ _ _ => constantTime_inverse T, fun _ => faithful_iff unit T⟩

theorem codec_bijective_iff_quiet :
    (∃ text decoded,
      encodeIntoConstantTime ⟨64, by decide⟩ [0, 0, 0, 0] [1, 2] .url = (.ok (), text) ∧
      decodeIntoConstantTime ⟨64, by decide⟩ [0, 0] text .url = (.ok 2, decoded) ∧
      decoded.take 2 = [1, 2]) ∧
    (∀ data, decode .neon ⟨64, by decide⟩ [65, 81, 73] .standard = .ok data →
      encode .neon ⟨64, by decide⟩ data .standard = some (completed .standard [65, 81, 73])) := by
  obtain ⟨hconstant, htexts⟩ := codec_bijective_iff .neon ⟨64, by decide⟩ .url
  obtain ⟨-, hstandard⟩ := codec_bijective_iff .neon ⟨64, by decide⟩ .standard
  exact ⟨hconstant [1, 2] [0, 0, 0, 0] [0, 0] (by decide) (by decide) (by decide),
    (hstandard [65, 81, 73] (by decide)).mpr (faithful_neon rfl _)⟩

/-- NEON reads `+` under an alphabet without it, and AVX2 writes other characters for
`hello world hello world!`. -/
theorem kernels_not_bijective :
    (¬∀ data, decode .neon ⟨64, by decide⟩ (List.replicate 32 43) .urlNoPadding = .ok data →
      encode .neon ⟨64, by decide⟩ data .urlNoPadding =
        some (completed .urlNoPadding (List.replicate 32 43))) ∧
    ¬∀ data, decode .avx2 ⟨64, by decide⟩ (encodeText .standard [104, 101, 108, 108, 111, 32, 119,
        111, 114, 108, 100, 32, 104, 101, 108, 108, 111, 32, 119, 111, 114, 108, 100, 33])
        .standard = .ok data →
      encode .avx2 ⟨64, by decide⟩ data .standard = some (completed .standard
        (encodeText .standard [104, 101, 108, 108, 111, 32, 119, 111, 114, 108, 100, 32, 104, 101,
          108, 108, 111, 32, 119, 111, 114, 108, 100, 33])) := by
  constructor
  · intro h
    have hread : decode .neon ⟨64, by decide⟩ (List.replicate 32 43) .urlNoPadding =
        .ok ([0xfb, 0xef, 0xbe, 0xfb, 0xef, 0xbe, 0xfb, 0xef, 0xbe, 0xfb, 0xef, 0xbe, 0xfb, 0xef,
          0xbe, 0xfb, 0xef, 0xbe, 0xfb, 0xef, 0xbe, 0xfb, 0xef, 0xbe] : Bytes) := by
      decide +kernel
    exact absurd (h _ hread) (by decide +kernel)
  · intro h
    have hread : decode .avx2 ⟨64, by decide⟩ (encodeText .standard [104, 101, 108, 108, 111, 32,
        119, 111, 114, 108, 100, 32, 104, 101, 108, 108, 111, 32, 119, 111, 114, 108, 100, 33])
        .standard = .ok ([104, 101, 108, 108, 111, 32, 119, 111, 114, 108, 100, 32, 104, 101,
          108, 108, 111, 32, 119, 111, 114, 108, 100, 33] : Bytes) := by
      decide +kernel
    exact absurd (h _ hread) (by decide +kernel)

end Stdx.Base64
