import Stdx.Base64.Bijection
import Stdx.Base32.Bijection
import Stdx.Hex.Decoder

/-!
# Decoders with an array as their result

`decode_array` runs the scalar buffer decoder over a zeroed array; it is exact when it answers
with what `decode` gives, and only for an array of that very length.
-/

namespace Stdx.Encoding

open Stdx.Foundation

variable {ε : Type}

/-- `decode_array::<size>` succeeds with what `decode` gives, and for that length only. -/
def Exact (decode : Except ε Bytes) (decodeArray : Nat → Except ε Bytes) (size : Nat) : Prop :=
  ∀ result, decodeArray size = .ok result ↔
    ∃ decoded, decode = .ok decoded ∧ decoded.length = size ∧ decoded = result

/-- An array decoder over a buffer decoder that only rejects short buffers. -/
structure FillsFront (decode : Except ε Bytes) (decodeArray : Nat → Except ε Bytes) : Prop where
  sound : ∀ size result, decodeArray size = .ok result →
    ∃ decoded, decode = .ok decoded ∧ decoded.length ≤ size ∧
      result.take decoded.length = decoded ∧ result.length = size
  complete : ∀ size decoded, decode = .ok decoded → decoded.length ≤ size →
    ∃ result, decodeArray size = .ok result

/-- The array decoder reads as `scalar` does, the other one at least what `scalar` reads. -/
theorem FillsFront.exact_iff {scalar decode : Except ε Bytes} {decodeArray : Nat → Except ε Bytes}
    (h : FillsFront scalar decodeArray)
    (hextends : ∀ decoded, scalar = .ok decoded → decode = .ok decoded) (size : Nat) :
    Exact decode decodeArray size ↔ (∀ decoded, scalar = .ok decoded → size ≤ decoded.length) ∧
      ∀ decoded, decode = .ok decoded → decoded.length = size → scalar = .ok decoded := by
  constructor
  · intro hexact
    constructor
    · intro decoded hscalar
      by_contra hshort
      obtain ⟨result, hresult⟩ := h.complete size decoded hscalar (by omega)
      obtain ⟨decoded', hdecode', hlength, -⟩ := (hexact result).mp hresult
      rw [hextends decoded hscalar] at hdecode'
      obtain rfl := Except.ok.inj hdecode'
      omega
    · intro decoded hdecode hlength
      have hresult := (hexact decoded).mpr ⟨decoded, hdecode, hlength, rfl⟩
      obtain ⟨decoded', hscalar, -⟩ := h.sound size decoded hresult
      have hsame := hextends decoded' hscalar
      rw [hdecode] at hsame
      obtain rfl := Except.ok.inj hsame
      exact hscalar
  · rintro ⟨hlong, hkernel⟩ result
    constructor
    · intro hresult
      obtain ⟨decoded, hscalar, hle, htake, hlength⟩ := h.sound size result hresult
      have hsize : decoded.length = size := Nat.le_antisymm hle (hlong decoded hscalar)
      refine ⟨decoded, hextends decoded hscalar, hsize, ?_⟩
      rw [← htake, hsize, ← hlength, List.take_length]
    · rintro ⟨decoded, hdecode, hsize, rfl⟩
      have hscalar := hkernel decoded hdecode hsize
      obtain ⟨result, hresult⟩ := h.complete size decoded hscalar (Nat.le_of_eq hsize)
      obtain ⟨decoded', hscalar', -, htake, hlength⟩ := h.sound size result hresult
      rw [hscalar] at hscalar'
      obtain rfl := Except.ok.inj hscalar'
      rw [hsize, ← hlength, List.take_length] at htake
      rw [hresult, htake]

end Stdx.Encoding

/-! ## Base64 -/

namespace Stdx.Base64

open Stdx.Foundation Stdx.Encoding

def decodeArray (T : Target) (size : Nat) (encodedData : Bytes) (alphabet : Alphabet) :
    Except DecodeError Bytes :=
  match decodeIntoConstantTime T (List.replicate size 0) encodedData alphabet with
  | (.ok _, result) => .ok result
  | (.error error, _) => .error error

def TextOf (alphabet : Alphabet) (text data : Bytes) : Prop :=
  text = encodeText alphabet data ∨ text = paddedText alphabet data

variable {T : Target} {alphabet : Alphabet}

theorem textOf_iff {text data : Bytes} :
    TextOf alphabet text data ↔ ∃ count, text = encodeText alphabet data ++
      List.replicate count pad ∧ Strips alphabet (encodeText alphabet data) count := by
  constructor
  · rintro (rfl | rfl)
    · exact ⟨0, by simp, endsPlain_of_ne (encodeText_ne_pad alphabet data), .inl rfl⟩
    · exact paddedText_eq_append alphabet data
  · rintro ⟨count, rfl, hstrips⟩
    rcases hstrips.pads with rfl | ⟨hpadded, htwo, hgroup⟩
    · exact .inl (List.append_nil _)
    · have hcount : (4 - (encodeText alphabet data).length % 4) % 4 = count := by omega
      right
      rw [paddedText, if_pos hpadded, padding, hcount]

theorem TextOf.length_le {text data : Bytes} (h : TextOf alphabet text data) :
    data.length ≤ text.length := by
  obtain ⟨count, rfl, -⟩ := textOf_iff.mp h
  rw [List.length_append, encodeText_length]
  split <;> omega

theorem decodeIntoConstantTime_text {text data output : Bytes} (h : TextOf alphabet text data)
    (hfits : data.length < 2 ^ T.usizeBits) (hroom : data.length ≤ output.length) :
    ∃ result, decodeIntoConstantTime T output text alphabet = (.ok data.length, result) ∧
      result.take data.length = data ∧ result.length = output.length := by
  obtain ⟨count, rfl, hstrips⟩ := textOf_iff.mp h
  obtain ⟨hcapacity, hlone⟩ := capacity_encodeText alphabet data
  obtain ⟨result, hlength, hrun⟩ := decodeIntoConstantTime_eq T (o := output)
    (stripPaddingInfo_iff.mpr ⟨_, rfl, rfl, hstrips⟩) (contentOf_append _ _) hlone
    (by rw [hcapacity]; exact hfits) (by rw [hcapacity]; exact hroom)
  rw [hcapacity, decodeText_encodeText] at hrun
  rcases hrun with ⟨htext, hrun⟩ | ⟨htext, -⟩
  · exact ⟨result, hrun, (Option.some.inj htext).symm, hlength⟩
  · cases htext

theorem textOf_of_strips {content data : Bytes} {count : Nat}
    (hstrips : Strips alphabet content count) (htext : decodeText alphabet content = some data) :
    TextOf alphabet (content ++ List.replicate count pad) data := by
  rw [← encodeText_of_decodeText alphabet htext] at hstrips ⊢
  exact textOf_iff.mpr ⟨count, rfl, hstrips⟩

theorem textOf_nil : TextOf alphabet [] [] := .inl rfl

theorem decodeIntoConstantTime_ok {text output result : Bytes} {size : Nat}
    (h : decodeIntoConstantTime T output text alphabet = (.ok size, result)) :
    ∃ data, TextOf alphabet text data ∧ data.length ≤ output.length ∧
      result.take data.length = data ∧ result.length = output.length := by
  rcases Nat.eq_zero_or_pos text.length with hempty | hsome
  · obtain rfl := List.length_eq_zero_iff.mp hempty
    obtain ⟨-, rfl⟩ : 0 = size ∧ output = result := by simpa [decodeIntoConstantTime] using h
    exact ⟨[], textOf_nil, Nat.zero_le _, rfl, rfl⟩
  · have hne : text.length ≠ 0 := Nat.ne_of_gt hsome
    cases hstrip : stripPaddingInfo text alphabet.isPadded with
    | error error => simp [decodeIntoConstantTime, hne, hstrip] at h
    | ok info =>
      obtain ⟨contentLen, padCount⟩ := info
      obtain ⟨content, htext, rfl, hstrips⟩ := stripPaddingInfo_iff.mp hstrip
      rcases Nat.eq_zero_or_pos content.length with hzero | hpos
      · obtain ⟨-, rfl⟩ : 0 = size ∧ output = result := by
          simpa [decodeIntoConstantTime, hne, hstrip, hzero] using h
        obtain rfl := List.length_eq_zero_iff.mp hzero
        exact ⟨[], htext ▸ textOf_of_strips hstrips rfl, Nat.zero_le _, rfl, rfl⟩
      · cases hdecoded : decodedLength T content.length with
        | error error =>
          simp [decodeIntoConstantTime, hne, hstrip, Nat.ne_of_gt hpos, hdecoded] at h
        | ok computed =>
          obtain ⟨rfl, hlone, hfits⟩ := decodedLength_ok hdecoded
          by_cases hroom : output.length < capacity content.length
          · simp [decodeIntoConstantTime, hne, hstrip, Nat.ne_of_gt hpos, hdecoded, hroom] at h
          · obtain ⟨written, hlength, hrun⟩ := decodeIntoConstantTime_eq T (o := output) hstrip
              (htext ▸ contentOf_append content _) hlone hfits (Nat.not_lt.mp hroom)
            rcases hrun with ⟨hread, hrun⟩ | ⟨-, hrun⟩
            · rw [hrun] at h
              obtain ⟨-, rfl⟩ : capacity content.length = size ∧ written = result := by
                simpa using h
              have hsize : (written.take (capacity content.length)).length =
                  capacity content.length :=
                List.length_take_of_le (by omega)
              exact ⟨_, htext ▸ textOf_of_strips hstrips hread, by omega, by rw [hsize],
                hlength⟩
            · rw [hrun] at h
              cases h

theorem decode_textOf (unit : VectorUnit) {text data : Bytes}
    (hfits : text.length < 2 ^ T.usizeBits) (h : TextOf alphabet text data) :
    decode unit T text alphabet = .ok data := by
  obtain ⟨count, htext, hstrips⟩ := textOf_iff.mp h
  exact (decode_iff unit T hfits).mpr ⟨_, count, htext, hstrips,
    (capacity_encodeText alphabet data).2, readText_encodeText unit data⟩

theorem decode_iff_textOf {text data : Bytes} (hfits : text.length < 2 ^ T.usizeBits) :
    decode .scalar T text alphabet = .ok data ↔ TextOf alphabet text data := by
  refine ⟨fun h => ?_, decode_textOf .scalar hfits⟩
  obtain ⟨content, count, rfl, hstrips, hlone, hread⟩ := (decode_iff .scalar T hfits).mp h
  refine textOf_of_strips hstrips ?_
  simpa [readText, readBy, decodeGroups, inGroups] using hread

theorem decodeArray_fillsFront {text : Bytes} (hfits : text.length < 2 ^ T.usizeBits) :
    FillsFront (decode .scalar T text alphabet) (decodeArray T · text alphabet) where
  sound size result h := by
    unfold decodeArray at h
    split at h
    · next hrun =>
      obtain rfl := Except.ok.inj h
      obtain ⟨data, htext, hle, htake, hlength⟩ := decodeIntoConstantTime_ok hrun
      rw [List.length_replicate] at hle hlength
      exact ⟨data, (decode_iff_textOf hfits).mpr htext, hle, htake, hlength⟩
    · cases h
  complete size data h hle := by
    have htext := (decode_iff_textOf hfits).mp h
    have hdata := htext.length_le
    obtain ⟨result, hrun, -⟩ := @decodeIntoConstantTime_text T _ _ _
      (List.replicate size 0) htext (by omega) (by simpa using hle)
    exact ⟨result, by rw [decodeArray, hrun]⟩

/-- What the kernels of a build take for `size` octets is a text. -/
def TakesTexts (unit : VectorUnit) (alphabet : Alphabet) (size : Nat) (text : Bytes) : Prop :=
  ∀ content count, text = content ++ List.replicate count pad → Strips alphabet content count →
    Taken unit alphabet content → capacity content.length = size →
    ∃ data, content = encodeText alphabet data

theorem Strips.unique {content content' : Bytes} {count count' : Nat}
    (h : Strips alphabet content count) (h' : Strips alphabet content' count')
    (hsame : content ++ List.replicate count pad = content' ++ List.replicate count' pad) :
    content = content' := by
  have hstrip := stripPaddingInfo_iff.mpr ⟨content, rfl, rfl, h⟩
  rw [hsame, stripPaddingInfo_iff.mpr ⟨content', rfl, rfl, h'⟩] at hstrip
  have hlength : content'.length = content.length := (Prod.mk.inj (Except.ok.inj hstrip)).1
  exact (List.append_inj hsame hlength.symm).1

theorem takesTexts_iff (unit : VectorUnit) {text : Bytes} (size : Nat)
    (hfits : text.length < 2 ^ T.usizeBits) :
    (∀ decoded, decode unit T text alphabet = .ok decoded → decoded.length = size →
      decode .scalar T text alphabet = .ok decoded) ↔ TakesTexts unit alphabet size text := by
  constructor
  · intro h content count htext hstrips htaken hsize
    obtain ⟨hlone, hsome⟩ := taken_iff.mp htaken
    obtain ⟨decoded, hread⟩ := Option.isSome_iff_exists.mp hsome
    have hscalar := h decoded
      ((decode_iff unit T hfits).mpr ⟨content, count, htext, hstrips, hlone, hread⟩)
      ((readText_length hread).trans hsize)
    obtain ⟨count', htext', hstrips'⟩ := textOf_iff.mp ((decode_iff_textOf hfits).mp hscalar)
    exact ⟨decoded, hstrips.unique hstrips' (htext.symm.trans htext')⟩
  · intro h decoded hdecode hlength
    obtain ⟨content, count, rfl, hstrips, hlone, hread⟩ := (decode_iff unit T hfits).mp hdecode
    obtain ⟨data, rfl⟩ := h content count rfl hstrips (taken_iff.mpr ⟨hlone, by rw [hread]; rfl⟩)
      ((readText_length hread).symm.trans hlength)
    rw [readText_encodeText] at hread
    obtain rfl := Option.some.inj hread
    exact (decode_iff_textOf hfits).mpr (textOf_iff.mpr ⟨count, rfl, hstrips⟩)

theorem takesTexts_scalar (size : Nat) (text : Bytes) : TakesTexts .scalar alphabet size text := by
  intro content count _ _ htaken _
  simpa [decodeGroups] using htaken.rest

theorem takesTexts_standard {unit : VectorUnit} (hunit : unit ≠ .simd128)
    (hurl : alphabet.isUrl = false) (size : Nat) (text : Bytes) :
    TakesTexts unit alphabet size text := by
  intro content count _ _ htaken _
  obtain ⟨data, hread⟩ := Option.isSome_iff_exists.mp (taken_iff.mp htaken).2
  rw [readText_standard hunit hurl] at hread
  exact ⟨data, (encodeText_of_decodeText alphabet hread).symm⟩

end Stdx.Base64

/-! ## Base32 -/

namespace Stdx.Base32

open Stdx.Foundation Stdx.Encoding

def decodeArray (size : Nat) (encodedData : Bytes) (alphabet : Alphabet) :
    Except DecodeError Bytes :=
  match decodeIntoConstantTime (List.replicate size 0) encodedData alphabet with
  | (.ok _, result) => .ok result
  | (.error error, _) => .error error

def TextOf (alphabet : Alphabet) (text data : Bytes) : Prop :=
  text = encodeText alphabet data ∨ text = paddedText alphabet data

variable {alphabet : Alphabet}

theorem TextOf.strip {text data : Bytes} (h : TextOf alphabet text data) :
    ContentOf text (encodeText alphabet data) ∧
      ∃ count, stripPaddingInfo text alphabet.isPadded =
        .ok ((encodeText alphabet data).length, count) := by
  have hbare : stripPaddingInfo (encodeText alphabet data) alphabet.isPadded =
      .ok ((encodeText alphabet data).length, 0) := by
    have hne := encodeText_ne_pad alphabet data
    cases alphabet.isPadded with
    | false => exact stripPaddingInfo_false_of_ne hne
    | true => simpa using @stripPaddingInfo_true_of_ne _ 0 hne (.inl rfl)
  rcases h with rfl | rfl
  · exact ⟨by simpa using contentOf_append (encodeText alphabet data) [], 0, hbare⟩
  · obtain ⟨count, happend, hstrip⟩ := paddedText_eq_append alphabet data
    refine ⟨?_, count, hstrip⟩
    rw [happend]
    exact contentOf_append _ _

theorem decodeIntoConstantTime_text {text data output : Bytes} (h : TextOf alphabet text data)
    (hroom : data.length ≤ output.length) :
    ∃ result, decodeIntoConstantTime output text alphabet = (.ok (), result) ∧
      result.take data.length = data ∧ result.length = output.length := by
  obtain ⟨hcontent, count, hstrip⟩ := h.strip
  have hoctets : octetsOf (encodeText alphabet data).length = data.length := by
    rw [encodeText_length, octetsOf_charactersOf]
  obtain ⟨result, hlength, hrun⟩ := @decodeIntoConstantTime_eq _ _ _ output _ hstrip hcontent
    (by rw [hoctets, encodeText_length]) (by rw [hoctets]; exact hroom)
  rw [hoctets, decodeText_encodeText] at hrun
  rcases hrun with ⟨htext, hrun⟩ | ⟨htext, -⟩
  · exact ⟨result, hrun, (Option.some.inj htext).symm, hlength⟩
  · cases htext

theorem textOf_of_strip {text data : Bytes} {contentLen padCount : Nat}
    (hstrip : stripPaddingInfo text alphabet.isPadded = .ok (contentLen, padCount))
    (htext : decodeText alphabet (text.take contentLen) = some data) :
    TextOf alphabet text data := by
  have hcontent := encodeText_of_decodeText alphabet htext
  unfold TextOf
  rw [paddedText, hcontent]
  cases hpadded : alphabet.isPadded with
  | false =>
    rw [hpadded] at hstrip
    obtain rfl := stripPaddingInfo_false hstrip
    simp
  | true =>
    rw [hpadded] at hstrip
    obtain ⟨hle, hsplit, hgroup⟩ := stripPaddingInfo_true hstrip
    rcases Nat.eq_zero_or_pos padCount with rfl | hpos
    · exact .inl (hsplit.trans (List.append_nil _))
    · obtain ⟨-, hmod, hlt⟩ := hgroup (Nat.ne_of_gt hpos)
      right
      simp only [if_true, padding, List.length_take_of_le hle]
      have hcount : (8 - contentLen % 8) % 8 = padCount := by omega
      rw [hcount]
      exact hsplit

theorem textOf_nil : TextOf alphabet [] [] := .inl rfl

theorem decodeIntoConstantTime_ok {text output result : Bytes}
    (h : decodeIntoConstantTime output text alphabet = (.ok (), result)) :
    ∃ data, TextOf alphabet text data ∧ data.length ≤ output.length ∧
      result.take data.length = data ∧ result.length = output.length := by
  rcases Nat.eq_zero_or_pos text.length with hempty | hsome
  · obtain rfl := List.length_eq_zero_iff.mp hempty
    obtain rfl : output = result := by simpa [decodeIntoConstantTime] using h
    exact ⟨[], textOf_nil, Nat.zero_le _, rfl, rfl⟩
  · have hne : text.length ≠ 0 := Nat.ne_of_gt hsome
    cases hstrip : stripPaddingInfo text alphabet.isPadded with
    | error error => simp [decodeIntoConstantTime, hne, hstrip] at h
    | ok info =>
      obtain ⟨contentLen, padCount⟩ := info
      have hle := (stripPaddingInfo_content hstrip).1
      have hlen : (text.take contentLen).length = contentLen := List.length_take_of_le hle
      rcases Nat.eq_zero_or_pos contentLen with rfl | hpos
      · obtain rfl : output = result := by
          simpa [decodeIntoConstantTime, hne, hstrip] using h
        have htext : decodeText alphabet (text.take 0) = some [] := by
          simp [decodeText, decodeGroup, values, octets, octetsOf, charactersOf]
        exact ⟨[], textOf_of_strip hstrip htext, Nat.zero_le _, rfl, rfl⟩
      · cases hdecoded : decodedLength contentLen with
        | error error =>
          simp [decodeIntoConstantTime, hne, hstrip, Nat.ne_of_gt hpos, hdecoded] at h
        | ok computed =>
          obtain ⟨rfl, heven⟩ := decodedLength_ok hdecoded
          by_cases hroom : output.length < octetsOf contentLen
          · simp [decodeIntoConstantTime, hne, hstrip, Nat.ne_of_gt hpos, hdecoded, hroom] at h
          · obtain ⟨written, hlength, hrun⟩ := @decodeIntoConstantTime_eq _ _ _ output _
              (by rw [hlen]; exact hstrip) (contentOf_take hle) (by rwa [hlen])
              (by rw [hlen]; omega)
            rw [hlen] at hrun
            rcases hrun with ⟨htext, hrun⟩ | ⟨-, hrun⟩
            · rw [hrun] at h
              obtain rfl : written = result := by simpa using h
              have hsize : (written.take (octetsOf contentLen)).length = octetsOf contentLen :=
                List.length_take_of_le (by omega)
              exact ⟨_, textOf_of_strip hstrip htext, by omega, by rw [hsize], hlength⟩
            · rw [hrun] at h
              cases h

theorem decode_iff_textOf (unit : VectorUnit) {text data : Bytes} :
    decode unit text alphabet = .ok data ↔ TextOf alphabet text data := by
  constructor
  · intro h
    obtain ⟨contentLen, padCount, hstrip, htext, -⟩ := decodeText_of_decode h
    exact textOf_of_strip hstrip htext
  · intro h
    obtain ⟨hcontent, count, hstrip⟩ := h.strip
    have heven : charactersOf (octetsOf (encodeText alphabet data).length) =
        (encodeText alphabet data).length := by
      rw [encodeText_length, octetsOf_charactersOf]
    have hfront : text.take (encodeText alphabet data).length = encodeText alphabet data := by
      rcases h with rfl | rfl
      · exact List.take_length
      · obtain ⟨count, happend, -⟩ := paddedText_eq_append alphabet data
        rw [happend, List.take_left]
    rw [decode_of_strip unit hstrip heven, hfront, decodeText_encodeText]

theorem decodeArray_fillsFront (text : Bytes) :
    FillsFront (decode .scalar text alphabet) (decodeArray · text alphabet) where
  sound size result h := by
    unfold decodeArray at h
    split at h
    · next hrun =>
      obtain rfl := Except.ok.inj h
      obtain ⟨data, htext, hle, htake, hlength⟩ := decodeIntoConstantTime_ok hrun
      rw [List.length_replicate] at hle hlength
      exact ⟨data, (decode_iff_textOf .scalar).mpr htext, hle, htake, hlength⟩
    · cases h
  complete size data h hle := by
    obtain ⟨result, hrun, -⟩ := @decodeIntoConstantTime_text _ _ _
      (List.replicate size 0) ((decode_iff_textOf .scalar).mp h) (by simpa using hle)
    exact ⟨result, by rw [decodeArray, hrun]⟩

end Stdx.Base32

/-! ## Hex -/

namespace Stdx.Hex

open Stdx.Foundation Stdx.Encoding

theorem exact_iff (unit : VectorUnit) (size : Nat) (text : Bytes) :
    Exact (decode unit text) (decodeArray · text) size ↔
      (text.length = 2 * size → Taken unit text → ∀ c ∈ text, IsHexDigit c) := by
  constructor
  · intro h hsize htaken
    have heven : text.length % 2 = 0 := by omega
    obtain ⟨data, hread⟩ := Option.isSome_iff_exists.mp ((readBy_isSome unit heven).mpr htaken)
    have hlength := readBy_length heven hread
    have hdecode := (h data).mpr
      ⟨data, (decode_ok_iff unit).mpr ⟨heven, hread⟩, by omega, rfl⟩
    exact (readText_isSome heven).mp (by rw [(decodeArray_ok_iff.mp hdecode).2]; rfl)
  · intro h result
    rw [decodeArray_ok_iff]
    constructor
    · rintro ⟨hsize, hread⟩
      have heven : text.length % 2 = 0 := by omega
      have hlength := readText_length heven hread
      exact ⟨result, (decode_ok_iff unit).mpr ⟨heven, readBy_of_readText unit heven hread⟩,
        by omega, rfl⟩
    · rintro ⟨decoded, hdecode, hsize, rfl⟩
      obtain ⟨heven, hread⟩ := (decode_ok_iff unit).mp hdecode
      have hlength := readBy_length heven hread
      have hdigits := h (by omega) ((readBy_isSome unit heven).mp (by rw [hread]; rfl))
      obtain ⟨data, htext⟩ := Option.isSome_iff_exists.mp ((readText_isSome heven).mpr hdigits)
      rw [readBy_of_readText unit heven htext] at hread
      exact ⟨by omega, by rw [htext, hread]⟩

end Stdx.Hex

/-! ## The three codecs -/

namespace Stdx.Encoding

open Stdx.Foundation

/-- Array decoders of base64 and base32 are exact unless the input is the text of fewer octets,
and those of base64 and hex unless the kernels of the build take an input that is no text. -/
theorem decode_arrays_exact (unit : VectorUnit) (size : Nat) (text : Bytes) :
    (∀ (T : Target) (alphabet : Base64.Alphabet), text.length < 2 ^ T.usizeBits →
      (Exact (Base64.decode unit T text alphabet) (Base64.decodeArray T · text alphabet) size ↔
        (∀ data, Base64.TextOf alphabet text data → size ≤ data.length) ∧
          Base64.TakesTexts unit alphabet size text)) ∧
    (∀ alphabet : Base32.Alphabet,
      (Exact (Base32.decode unit text alphabet) (Base32.decodeArray · text alphabet) size ↔
        ∀ data, Base32.TextOf alphabet text data → size ≤ data.length)) ∧
    (Exact (Hex.decode unit text) (Hex.decodeArray · text) size ↔
      (text.length = 2 * size → Hex.Taken unit text → ∀ c ∈ text, Hex.IsHexDigit c)) := by
  refine ⟨?_, ?_, Hex.exact_iff unit size text⟩
  · intro T alphabet hfits
    have hextends (decoded : Bytes) (h : Base64.decode .scalar T text alphabet = .ok decoded) :
        Base64.decode unit T text alphabet = .ok decoded :=
      Base64.decode_textOf unit hfits ((Base64.decode_iff_textOf hfits).mp h)
    rw [(Base64.decodeArray_fillsFront hfits).exact_iff hextends,
      Base64.takesTexts_iff unit size hfits]
    simp only [Base64.decode_iff_textOf hfits]
  · intro alphabet
    rw [Base32.decode_eq_scalar,
      (Base32.decodeArray_fillsFront text).exact_iff (fun _ h => h)]
    simp only [Base32.decode_iff_textOf .scalar, and_iff_left_iff_imp]
    exact fun _ _ h _ => h

theorem decode_arrays_exact_foo :
    Exact (Base64.decode .neon ⟨64, by decide⟩ [90, 109, 57, 118] .standard)
      (Base64.decodeArray ⟨64, by decide⟩ · [90, 109, 57, 118] .standard) 3 := by
  refine ((decode_arrays_exact .neon 3 [90, 109, 57, 118]).1 ⟨64, by decide⟩ .standard
    (by decide)).mpr ⟨fun data h => ?_, Base64.takesTexts_standard (by decide) rfl _ _⟩
  have hdecode := (Base64.decode_iff_textOf (T := ⟨64, by decide⟩) (by decide)).mpr h
  have hfoo : Base64.decode .scalar ⟨64, by decide⟩ [90, 109, 57, 118] .standard =
      .ok [102, 111, 111] := by
    decide
  rw [hfoo] at hdecode
  obtain rfl := Except.ok.inj hdecode
  decide

/-- The text of three octets fills the front of an array of five. -/
theorem short_text_accepted :
    ¬Exact (Base64.decode .scalar ⟨64, by decide⟩ [90, 109, 57, 118] .standard)
      (Base64.decodeArray ⟨64, by decide⟩ · [90, 109, 57, 118] .standard) 5 := by
  intro h
  obtain ⟨decoded, hdecode, hlength, -⟩ := (h [102, 111, 111, 0, 0]).mp (by decide)
  have hfoo : Base64.decode .scalar ⟨64, by decide⟩ [90, 109, 57, 118] .standard =
      .ok [102, 111, 111] := by
    decide
  rw [hfoo] at hdecode
  obtain rfl := Except.ok.inj hdecode
  cases hlength

end Stdx.Encoding
