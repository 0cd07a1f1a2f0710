import Stdx.Base64.Lanes
import Stdx.Base64.Padding

/-!
# What `encode_into` and `decode_into` compute

Every build writes and reads the groups of its vector blocks with its kernel and the rest with
the scalar codec.
-/

namespace Stdx.Base64

open Stdx.Foundation

/-! ## Texts by groups -/

section Groups

variable (alphabet : Alphabet)

theorem eq_of_length_three {xs : Bytes} (h : xs.length = 3) : ∃ b0 b1 b2, xs = [b0, b1, b2] := by
  match xs, h with
  | [b0, b1, b2], _ => exact ⟨b0, b1, b2, rfl⟩

theorem eq_of_length_four {xs : Bytes} (h : xs.length = 4) :
    ∃ c0 c1 c2 c3, xs = [c0, c1, c2, c3] := by
  match xs, h with
  | [c0, c1, c2, c3], _ => exact ⟨c0, c1, c2, c3, rfl⟩

theorem encodeText_append_group {front : Bytes} (h : front.length = 3) (rest : Bytes) :
    encodeText alphabet (front ++ rest) =
      encodeText alphabet front ++ encodeText alphabet rest := by
  obtain ⟨b0, b1, b2, rfl⟩ := eq_of_length_three h
  simp [encodeText]

theorem encodeText_groups {count : Nat} {data : Bytes} (h : 3 * count ≤ data.length) :
    encodeText alphabet data = mapGroups 3 (encodeText alphabet) count data ++
      encodeText alphabet (data.drop (3 * count)) :=
  eq_mapGroups_append (fun rest hfront => encodeText_append_group alphabet hfront rest) h

theorem decodeText_append_group {front : Bytes} (h : front.length = 4) (rest : Bytes) :
    decodeText alphabet (front ++ rest) = (do
      let octets ← decodeText alphabet front
      let others ← decodeText alphabet rest
      some (octets ++ others)) := by
  obtain ⟨c0, c1, c2, c3, rfl⟩ := eq_of_length_four h
  simp [decodeText, Option.bind_assoc]

theorem decodeText_groups {count : Nat} {content : Bytes} (h : 4 * count ≤ content.length) :
    decodeText alphabet content = (do
      let front ← inGroups 4 (decodeText alphabet) count content
      let back ← decodeText alphabet (content.drop (4 * count))
      some (front ++ back)) :=
  eq_inGroups_bind (fun rest hfront => decodeText_append_group alphabet hfront rest) h

theorem encodeLane_length (unit : VectorUnit) {octets : Bytes} (h : octets.length = 3) :
    (encodeLane unit alphabet octets).length = 4 := by
  obtain ⟨b0, b1, b2, rfl⟩ := eq_of_length_three h
  rw [encodeLane_eq, List.length_map]
  cases unit with
  | scalar | neon => rfl
  | avx2 => rfl
  | simd128 => rfl

theorem decodeLane_length_of {unit : VectorUnit} {chars out : Bytes} (h : chars.length = 4)
    (hlane : decodeLane unit alphabet chars = some out) : out.length = 3 := by
  obtain ⟨c0, c1, c2, c3, rfl⟩ := eq_of_length_four h
  exact decodeLane_length hlane

end Groups

/-! ## Encoding -/

/-- The groups of the input that `encode_into` leaves to the kernel. -/
def encodeGroups (unit : VectorUnit) (length : Nat) : Nat :=
  match unit with
  | .neon => 16 * (length / 48)
  | .avx2 => 8 * (length / 24)
  | .simd128 => 4 * (length / 12)
  | .scalar => 0

theorem encodeGroups_le (unit : VectorUnit) (length : Nat) :
    3 * encodeGroups unit length ≤ length := by
  cases unit <;> simp only [encodeGroups] <;> omega

/-- The text a build writes for `data`, without the padding. -/
def writtenText (unit : VectorUnit) (alphabet : Alphabet) (data : Bytes) : Bytes :=
  mapGroups 3 (encodeLane unit alphabet) (encodeGroups unit data.length) data ++
    encodeText alphabet (data.drop (3 * encodeGroups unit data.length))

section Encoder

variable {alphabet : Alphabet}

theorem completed_append {front : Bytes} (h : front.length % 4 = 0) (back : Bytes) :
    completed alphabet (front ++ back) = front ++ completed alphabet back := by
  have hlength : (front.length + back.length) % 4 = back.length % 4 := by omega
  unfold completed padding
  rw [List.length_append, hlength]
  split
  · rw [List.append_assoc]
  · rfl

theorem paddedText_length (data : Bytes) :
    (paddedText alphabet data).length = encodedRestLength alphabet data.length := by
  have htext := encodeText_length alphabet data
  have hmod : data.length % 3 = 0 ∨ data.length % 3 = 1 ∨ data.length % 3 = 2 := by omega
  simp only [paddedText, padding, encodedRestLength]
  rcases hmod with hmod | hmod | hmod
  · have hcount : data.length / 3 * 4 % 4 = 0 := by omega
    simp only [hmod, if_true, Nat.add_zero] at htext
    split <;> simp [htext, hmod]
  · have hcount : (data.length / 3 * 4 + 2) % 4 = 2 := by omega
    rw [hmod, if_neg (by omega)] at htext
    cases alphabet.isPadded <;> simp [hmod, htext, hcount]
  · have hcount : (data.length / 3 * 4 + 3) % 4 = 3 := by omega
    rw [hmod, if_neg (by omega)] at htext
    cases alphabet.isPadded <;> simp [hmod, htext, hcount]

variable (alphabet) in
theorem encodeVector_eq (T : Target) {m : Nat} {lane : Alphabet → Bytes → Bytes}
    {data output : Bytes}
    (hlane : ∀ octets : Bytes, octets.length = 3 → (lane alphabet octets).length = 4)
    (hfits : data.length < 2 ^ (T.usizeBits - 1))
    (hsize : output.length = (paddedText alphabet data).length) :
    encodeVector (3 * m) lane T output data alphabet =
      (.ok (), completed alphabet
        (mapGroups 3 (lane alphabet) (m * (data.length / (3 * m))) data ++
          encodeText alphabet (data.drop (3 * (m * (data.length / (3 * m))))))) := by
  obtain ⟨rounds, hrounds⟩ : ∃ rounds, data.length / (3 * m) = rounds := ⟨_, rfl⟩
  have hle : 3 * (m * rounds) ≤ data.length := by
    rw [← hrounds, ← Nat.mul_assoc]
    exact Nat.mul_div_le _ _
  have hstored := mapGroups_length (f := lane alphabet) hle hlane
  obtain ⟨rest, hrest⟩ : ∃ rest, data.drop (3 * (m * rounds)) = rest := ⟨_, rfl⟩
  have hdrop : rest.length = data.length - 3 * (m * rounds) := by
    rw [← hrest, List.length_drop]
  have hroom : output.length = 4 * (m * rounds) + (paddedText alphabet rest).length := by
    rw [hsize, paddedText_length, paddedText_length, hdrop]
    have hdiv : (data.length - 3 * (m * rounds)) / 3 = data.length / 3 - m * rounds := by omega
    have hmod : (data.length - 3 * (m * rounds)) % 3 = data.length % 3 := by omega
    rw [encodedRestLength, encodedRestLength, hdiv, hmod]
    omega
  have hcomplete : completed alphabet (encodeText alphabet rest) = paddedText alphabet rest := rfl
  rw [completed_append (by rw [hrounds, hstored]; omega), hrounds, hrest, hcomplete]
  have htail : (output.drop (4 * (m * rounds))).length = (paddedText alphabet rest).length := by
    rw [List.length_drop]
    omega
  simp only [encodeVector, Nat.mul_div_cancel_left m (by decide : 0 < 3), mapGroups_mapGroups,
    hrounds, hstored, Nat.mul_assoc, hrest]
  by_cases hempty : rest.length > 0
  · rw [if_pos hempty, ← paddedText_length, List.take_of_length_le htail.le,
      List.drop_of_length_le htail.le, encodeIntoConstantTime_eq alphabet T (by omega) htail,
      List.append_nil]
  · obtain rfl : rest = [] := List.length_eq_zero_iff.mp (by omega)
    have hnil : paddedText alphabet [] = [] := by
      simp [paddedText, encodeText, padding]
    rw [hnil] at htail ⊢
    rw [if_neg hempty, List.length_eq_zero_iff.mp htail]

variable (alphabet) in
theorem encodeInto_eq (unit : VectorUnit) (T : Target) {data output : Bytes}
    (hfits : data.length < 2 ^ (T.usizeBits - 1))
    (hsize : output.length = (paddedText alphabet data).length) :
    encodeInto unit T output data alphabet =
      (.ok (), completed alphabet (writtenText unit alphabet data)) := by
  have hcheck : checkEncodeOutputLength T output.length data.length alphabet = .ok () := by
    simp [checkEncodeOutputLength, encodedLength_eq alphabet T hfits, hsize]
  have hscalar := encodeIntoConstantTime_eq alphabet T hfits hsize
  have hfrom {m : Nat} {lane : Alphabet → Bytes → Bytes} (hm : 0 < m)
      (hlane : ∀ octets : Bytes, octets.length = 3 → (lane alphabet octets).length = 4) :
      encodeFrom (3 * m) lane T output data alphabet = (.ok (), completed alphabet
        (mapGroups 3 (lane alphabet) (m * (data.length / (3 * m))) data ++
          encodeText alphabet (data.drop (3 * (m * (data.length / (3 * m))))))) := by
    unfold encodeFrom
    split
    · simp only [hcheck]
      exact encodeVector_eq alphabet T hlane hfits hsize
    · next hshort =>
      rw [hscalar, Nat.div_eq_of_lt (by omega)]
      rfl
  cases unit with
  | scalar => exact hscalar
  | neon => exact hfrom (m := 16) (by decide) fun _ => encodeLane_length alphabet .neon
  | avx2 => exact hfrom (m := 8) (by decide) fun _ => encodeLane_length alphabet .avx2
  | simd128 => exact hfrom (m := 4) (by decide) fun _ => encodeLane_length alphabet .simd128

theorem encode_eq (unit : VectorUnit) (T : Target) {data : Bytes}
    (hfits : data.length < 2 ^ (T.usizeBits - 1)) :
    encode unit T data alphabet = some (completed alphabet (writtenText unit alphabet data)) := by
  have hsize : (List.replicate (paddedText alphabet data).length (0 : UInt8)).length =
      (paddedText alphabet data).length := List.length_replicate
  have hrun := encodeInto_eq alphabet unit T hfits hsize
  simp [encode, encodedLength_eq alphabet T hfits, hrun]

/-- The groups that the kernel writes as the alphabet does. -/
def WritesText (unit : VectorUnit) (data : Bytes) : Prop :=
  ∀ i < encodeGroups unit data.length, WritesGroup unit (group 3 i data)

theorem writtenText_eq_iff (unit : VectorUnit) (data : Bytes) :
    writtenText unit alphabet data = encodeText alphabet data ↔ WritesText unit data := by
  have hle := encodeGroups_le unit data.length
  have htext (octets : Bytes) (h : octets.length = 3) :
      (encodeText alphabet octets).length = 4 := by
    rw [encodeText_length, h]
    rfl
  rw [encodeText_groups alphabet hle, writtenText, List.append_left_inj,
    mapGroups_eq_iff hle (fun _ => encodeLane_length alphabet unit) htext]
  refine forall₂_congr fun i hi => ?_
  have hgroup : (group 3 i data).length = 3 := group_length (by omega)
  obtain ⟨b0, b1, b2, hoctets⟩ := eq_of_length_three hgroup
  rw [hoctets]
  exact writesGroup_iff unit alphabet b0 b1 b2

end Encoder

/-! ## Decoding -/

/-- The groups of the content that `decode_into` leaves to the kernel. -/
def decodeGroups (unit : VectorUnit) (length : Nat) : Nat :=
  match unit with
  | .neon | .avx2 => 8 * (length / 32)
  | .simd128 => 4 * (length / 16)
  | .scalar => 0

theorem decodeGroups_le (unit : VectorUnit) (length : Nat) :
    4 * decodeGroups unit length ≤ length := by
  cases unit <;> simp only [decodeGroups] <;> omega

/-- The first `count` groups by a kernel, and the rest as text. -/
def readBy (lane : Bytes → Option Bytes) (alphabet : Alphabet) (count : Nat) (content : Bytes) :
    Option Bytes := do
  let front ← inGroups 4 lane count content
  let back ← decodeText alphabet (content.drop (4 * count))
  some (front ++ back)

def readText (unit : VectorUnit) (alphabet : Alphabet) (content : Bytes) : Option Bytes :=
  readBy (decodeLane unit alphabet) alphabet (decodeGroups unit content.length) content

section Decoder

variable {alphabet : Alphabet}

theorem decodedRestLength_eq {len : Nat} (h : len % 4 ≠ 1) :
    decodedRestLength len = capacity len := by
  have hmod : len % 4 = 0 ∨ len % 4 = 2 ∨ len % 4 = 3 := by omega
  unfold decodedRestLength capacity
  rcases hmod with hmod | hmod | hmod
  · simp [hmod]
  · simp [hmod]
  · simp [hmod]

theorem decodeVector_eq (T : Target) {m : Nat} {lane : Alphabet → Bytes → Option Bytes}
    {content output : Bytes}
    (hlane : ∀ chars out : Bytes, chars.length = 4 → lane alphabet chars = some out →
      out.length = 3)
    (hplain : EndsPlain pad content) (hlone : content.length % 4 ≠ 1)
    (hfits : capacity content.length < 2 ^ T.usizeBits)
    (hroom : capacity content.length ≤ output.length) :
    ∃ out, (∃ octets, readBy (lane alphabet) alphabet (m * (content.length / (4 * m))) content =
          some octets ∧ out.take (capacity content.length) = octets ∧
          octets.length = capacity content.length ∧ out.length = output.length ∧
          decodeVector (4 * m) lane T output content alphabet = (.ok (), out)) ∨
      (readBy (lane alphabet) alphabet (m * (content.length / (4 * m))) content = none ∧
        decodeVector (4 * m) lane T output content alphabet = (.error .invalidInput, out)) := by
  obtain ⟨rounds, hrounds⟩ : ∃ rounds, content.length / (4 * m) = rounds := ⟨_, rfl⟩
  have hle : 4 * (m * rounds) ≤ content.length := by
    rw [← hrounds, ← Nat.mul_assoc]
    exact Nat.mul_div_le _ _
  have hloop := vectorLoop_eq (4 * m) (inGroups 4 (lane alphabet) m) rounds content
  rw [inGroups_inGroups, Nat.mul_assoc] at hloop
  simp only [decodeVector, Nat.mul_div_cancel_left m (by decide : 0 < 4), hrounds, readBy]
  cases hfront : inGroups 4 (lane alphabet) (m * rounds) content with
  | none =>
    rw [hfront] at hloop
    simp only at hloop
    revert hloop
    cases vectorLoop (4 * m) (inGroups 4 (lane alphabet) m) rounds content with
    | mk stored left =>
      rintro rfl
      exact ⟨_, .inr ⟨rfl, rfl⟩⟩
  | some front =>
    rw [hfront] at hloop
    simp only at hloop
    rw [hloop]
    have hlength := inGroups_length hle hlane hfront
    obtain ⟨rest, hrest⟩ : ∃ rest, content.drop (4 * (m * rounds)) = rest := ⟨_, rfl⟩
    have hdrop : rest.length = content.length - 4 * (m * rounds) := by
      rw [← hrest, List.length_drop]
    have hcapacity : capacity content.length = 3 * (m * rounds) + capacity rest.length := by
      unfold capacity
      rw [hdrop]
      have hdiv : (content.length - 4 * (m * rounds)) / 4 =
          content.length / 4 - m * rounds := by omega
      have hmod : (content.length - 4 * (m * rounds)) % 4 = content.length % 4 := by omega
      rw [hdiv, hmod]
      omega
    have hlone' : rest.length % 4 ≠ 1 := by omega
    have hplain' : EndsPlain pad rest := hrest ▸ hplain.drop _
    simp only [hrest, hlength]
    by_cases hempty : rest.length > 0
    · have hstrip : stripPaddingInfo rest alphabet.isPadded = .ok (rest.length, 0) :=
        stripPaddingInfo_iff.mpr ⟨rest, by simp, rfl, hplain', .inl rfl⟩
      have hback : capacity rest.length ≤
          ((output.drop (3 * (m * rounds))).take (decodedRestLength rest.length)).length := by
        rw [decodedRestLength_eq hlone', List.length_take, List.length_drop]
        omega
      obtain ⟨out', hsize, hrun⟩ := decodeIntoConstantTime_eq T hstrip
        (by simpa using contentOf_append rest []) hlone' (by omega) hback
      rw [decodedRestLength_eq hlone', List.length_take_of_le (by
        rw [List.length_drop]
        omega)] at hsize
      rw [List.take_of_length_le hsize.le] at hrun
      rw [if_pos hempty]
      rcases hrun with ⟨htext, hrun⟩ | ⟨htext, hrun⟩
      · refine ⟨_, .inl ⟨_, by rw [htext]; rfl, ?_, ?_, ?_, by rw [hrun]⟩⟩
        · exact List.take_left' (by rw [List.length_append, hlength, hsize, hcapacity])
        · rw [List.length_append, hlength, hsize, hcapacity]
        · rw [List.length_append, List.length_append, List.length_drop, List.length_drop,
            hlength, hsize, decodedRestLength_eq hlone']
          omega
      · exact ⟨_, .inr ⟨by rw [htext]; rfl, by rw [hrun]⟩⟩
    · obtain rfl : rest = [] := List.length_eq_zero_iff.mp (by omega)
      have hzero : capacity ([] : Bytes).length = 0 := rfl
      rw [if_neg hempty]
      refine ⟨_, .inl ⟨front, by simp [decodeText], ?_, ?_, ?_, rfl⟩⟩
      · exact List.take_left' (by omega)
      · omega
      · rw [List.length_append, List.length_drop]
        omega

/-- A run of `decode_into` on a content and its pads. -/
theorem decodeInto_eq (unit : VectorUnit) (T : Target) {content output : Bytes} {count : Nat}
    (hstrips : Strips alphabet content count) (hlone : content.length % 4 ≠ 1)
    (hfits : capacity content.length < 2 ^ T.usizeBits)
    (hroom : capacity content.length ≤ output.length) :
    ∃ out, (∃ octets, readText unit alphabet content = some octets ∧
          out.take (capacity content.length) = octets ∧
          octets.length = capacity content.length ∧ out.length = output.length ∧
          decodeInto unit T output (content ++ List.replicate count pad) alphabet =
            (.ok (capacity content.length), out)) ∨
      (readText unit alphabet content = none ∧
        decodeInto unit T output (content ++ List.replicate count pad) alphabet =
          (.error .invalidInput, out)) := by
  have hstrip := stripPaddingInfo_iff.mpr ⟨content, rfl, rfl, hstrips⟩
  have hcontent := contentOf_append content (List.replicate count pad)
  have htake : (content ++ List.replicate count pad).take content.length = content :=
    List.take_left' rfl
  have hscalar : ∃ out, (∃ octets, decodeText alphabet content = some octets ∧
        out.take (capacity content.length) = octets ∧
        octets.length = capacity content.length ∧ out.length = output.length ∧
        decodeIntoConstantTime T output (content ++ List.replicate count pad) alphabet =
          (.ok (capacity content.length), out)) ∨
      (decodeText alphabet content = none ∧
        decodeIntoConstantTime T output (content ++ List.replicate count pad) alphabet =
          (.error .invalidInput, out)) := by
    obtain ⟨out, hsize, ⟨htext, hrun⟩ | hrun⟩ :=
      decodeIntoConstantTime_eq T hstrip hcontent hlone hfits hroom
    · exact ⟨out, .inl ⟨_, htext, rfl, List.length_take_of_le (by omega), hsize, hrun⟩⟩
    · exact ⟨out, .inr hrun⟩
  have hfrom {m : Nat} {lane : Alphabet → Bytes → Option Bytes} (hm : 0 < m)
      (hlane : ∀ chars out : Bytes, chars.length = 4 → lane alphabet chars = some out →
        out.length = 3) :
      ∃ out, (∃ octets, readBy (lane alphabet) alphabet (m * (content.length / (4 * m))) content =
            some octets ∧ out.take (capacity content.length) = octets ∧
            octets.length = capacity content.length ∧ out.length = output.length ∧
            decodeFrom (4 * m) lane T output (content ++ List.replicate count pad) content.length
              (capacity content.length) alphabet = (.ok (capacity content.length), out)) ∨
        (readBy (lane alphabet) alphabet (m * (content.length / (4 * m))) content = none ∧
          decodeFrom (4 * m) lane T output (content ++ List.replicate count pad) content.length
            (capacity content.length) alphabet = (.error .invalidInput, out)) := by
    unfold decodeFrom
    by_cases hshort : content.length ≥ 4 * m
    · simp only [if_pos hshort, htake]
      obtain ⟨out, ⟨octets, hread, htext, hlength, hsize, hrun⟩ | ⟨hread, hrun⟩⟩ :=
        decodeVector_eq T (m := m) hlane hstrips.plain hlone hfits hroom
      · exact ⟨out, .inl ⟨octets, hread, htext, hlength, hsize, by rw [hrun]⟩⟩
      · exact ⟨out, .inr ⟨hread, by rw [hrun]⟩⟩
    · have hread : readBy (lane alphabet) alphabet (m * (content.length / (4 * m))) content =
          decodeText alphabet content := by
        rw [Nat.div_eq_of_lt (by omega)]
        simp [readBy, inGroups]
      simpa only [if_neg hshort, hread] using hscalar
  have hlanes (unit : VectorUnit) (chars out : Bytes) (h : chars.length = 4)
      (hlane : decodeLane unit alphabet chars = some out) : out.length = 3 :=
    decodeLane_length_of alphabet h hlane
  simp only [decodeInto, hstrip, decodedLength_eq T hfits hlone, if_neg (Nat.not_lt.mpr hroom)]
  cases unit with
  | scalar =>
    have hread : readText .scalar alphabet content = decodeText alphabet content := by
      simp [readText, readBy, decodeGroups, inGroups]
    simpa only [hread] using hscalar
  | neon => exact hfrom (m := 8) (by decide) (hlanes .neon)
  | avx2 => exact hfrom (m := 8) (by decide) (hlanes .avx2)
  | simd128 => exact hfrom (m := 4) (by decide) (hlanes .simd128)

theorem decode_iff (unit : VectorUnit) (T : Target) {text data : Bytes}
    (hfits : text.length < 2 ^ T.usizeBits) :
    decode unit T text alphabet = .ok data ↔
      ∃ content count, text = content ++ List.replicate count pad ∧
        Strips alphabet content count ∧ content.length % 4 ≠ 1 ∧
        readText unit alphabet content = some data := by
  have hsmall {content : Bytes} {count : Nat} (h : text = content ++ List.replicate count pad) :
      capacity content.length < 2 ^ T.usizeBits := by
    rw [h, List.length_append] at hfits
    unfold capacity
    omega
  have hrun {content : Bytes} {count : Nat} (h : text = content ++ List.replicate count pad)
      (hstrips : Strips alphabet content count) (hlone : content.length % 4 ≠ 1) :
      decode unit T text alphabet = .ok data ↔ readText unit alphabet content = some data := by
    have hstrip := stripPaddingInfo_iff.mpr ⟨content, h, rfl, hstrips⟩
    have hroom : capacity content.length ≤
        (List.replicate (capacity content.length) (0 : UInt8)).length := by simp
    obtain ⟨out, hcases⟩ := decodeInto_eq unit T hstrips hlone (hsmall h) hroom
    rw [← h] at hcases
    simp only [decode, hstrip, decodedLength_eq T (hsmall h) hlone, bind, Except.bind]
    obtain ⟨octets, hread, htext, hlength, hsize, hinto⟩ | ⟨hread, hinto⟩ := hcases
    · rw [List.length_replicate] at hsize
      rw [List.take_of_length_le hsize.le] at htext
      rw [hinto, hread, ← htext]
      simp
    · rw [hinto, hread]
      simp
  constructor
  · intro h
    cases hstrip : stripPaddingInfo text alphabet.isPadded with
    | error error => simp [decode, hstrip, bind, Except.bind] at h
    | ok result =>
      obtain ⟨contentLen, count⟩ := result
      obtain ⟨content, htext, rfl, hstrips⟩ := stripPaddingInfo_iff.mp hstrip
      have hlone : content.length % 4 ≠ 1 := by
        cases hdecoded : decodedLength T content.length with
        | error error => simp [decode, hstrip, hdecoded, bind, Except.bind] at h
        | ok size => exact (decodedLength_ok hdecoded).2.1
      exact ⟨content, count, htext, hstrips, hlone, (hrun htext hstrips hlone).mp h⟩
  · rintro ⟨content, count, htext, hstrips, hlone, hread⟩
    exact (hrun htext hstrips hlone).mpr hread

end Decoder

end Stdx.Base64
