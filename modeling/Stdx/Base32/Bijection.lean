import Stdx.Base32.Dispatch

/-!
# Base32 as a bijection

Both directions of the codec, for every build.
-/

namespace Stdx.Base32

open Stdx.Foundation

section Runs

variable {alphabet : Alphabet}

theorem completed_inj {x y : Bytes} (hlength : x.length = y.length)
    (h : completed alphabet x = completed alphabet y) : x = y := by
  unfold completed at h
  split at h
  · exact (List.append_inj h hlength).1
  · exact h

/-! ## Both directions -/

/-- A decoder buffer gets back what an encoder buffer holds. -/
def RoundTrips (T : Target) (alphabet : Alphabet) (data : Bytes) : Prop :=
  ∀ output decoded : Bytes, (paddedText alphabet data).length ≤ output.length →
    data.length ≤ decoded.length →
    ∃ written decoded', encodeIntoConstantTime T output data alphabet = some (.ok (), written) ∧
      decodeIntoConstantTime decoded (written.take (paddedText alphabet data).length) alphabet =
        (.ok (), decoded') ∧
      decoded'.take data.length = data

theorem roundTrips_of_encodable {T : Target} {data : Bytes}
    (hfits : data.length < 2 ^ (T.usizeBits - 1))
    (hencodable : Encodable T alphabet data.length) : RoundTrips T alphabet data := by
  intro output decoded hsize hroom
  obtain ⟨written, hencode, htake, -⟩ := encodeIntoConstantTime_eq alphabet T hfits hencodable hsize
  obtain ⟨count, happend, hstrip⟩ := paddedText_eq_append alphabet data
  have hcontent : ContentOf (paddedText alphabet data) (encodeText alphabet data) := by
    rw [happend]
    exact contentOf_append _ _
  have hoctets : octetsOf (encodeText alphabet data).length = data.length := by
    rw [encodeText_length, octetsOf_charactersOf]
  obtain ⟨decoded', -, hrun⟩ := @decodeIntoConstantTime_eq _ _ _ decoded _ hstrip hcontent
    (by rw [hoctets, encodeText_length]) (by rw [hoctets]; exact hroom)
  rw [hoctets, decodeText_encodeText] at hrun
  rcases hrun with ⟨htext, hrun⟩ | ⟨htext, -⟩
  · exact ⟨written, decoded', hencode, by rw [htake]; exact hrun, (Option.some.inj htext).symm⟩
  · cases htext

theorem not_roundTrips {T : Target} {data : Bytes} (hfits : data.length < 2 ^ (T.usizeBits - 1))
    (hencodable : ¬Encodable T alphabet data.length) : ¬RoundTrips T alphabet data := by
  intro h
  obtain ⟨written, _, hencode, -⟩ := h (List.replicate (paddedText alphabet data).length 0) data
    (by simp) (Nat.le_refl _)
  have hexpected := encodedLength_eq alphabet T hfits
  rw [if_neg hencodable] at hexpected
  rw [encodeIntoConstantTime, hexpected] at hencode
  cases hencode

/-- Encoding then decoding is the identity, and decoding loses nothing but padding that the text
may leave out, as long as the length computation of the encoder stays within `usize` and its
kernel does not meet quintet 15. -/
theorem encoding_bijective_iff (unit : VectorUnit) (T : Target) (alphabet : Alphabet) :
    (∀ data : Bytes, data.length < 2 ^ (T.usizeBits - 1) →
      (RoundTrips T alphabet data ↔ Encodable T alphabet data.length)) ∧
    (∀ text data : Bytes, text.length < 2 ^ (T.usizeBits - 1) →
      decode unit text alphabet = .ok data →
      completed alphabet text = paddedText alphabet data ∧
      (encode unit T data alphabet = some (completed alphabet text) ↔
        Encodable T alphabet data.length ∧ WritesText unit data)) := by
  constructor
  · intro data hfits
    constructor
    · intro h
      by_contra hencodable
      exact not_roundTrips hfits hencodable h
    · exact roundTrips_of_encodable hfits
  · intro text data hfits hdecode
    obtain ⟨contentLen, padCount, hstrip, htext, hlength⟩ := decodeText_of_decode hdecode
    have hcomplete := (stripPaddingInfo_content hstrip).2
    rw [← encodeText_of_decodeText alphabet htext, completed_encodeText] at hcomplete
    refine ⟨hcomplete, ?_⟩
    rw [encode_eq alphabet unit T (by omega), hcomplete, ← writtenText_eq_iff alphabet unit data]
    split
    · next hencodable =>
      simp only [hencodable, true_and, Option.some.injEq]
      refine ⟨fun h => ?_, fun h => by rw [h]; rfl⟩
      exact completed_inj (writtenText_length unit data) h
    · next hencodable => simp [hencodable]

theorem encoding_bijective_iff_two_octets :
    RoundTrips ⟨64, by decide⟩ .rfc4648NoPadding [1, 2] ∧
    completed .crockford [48, 52, 49, 48] = paddedText .crockford [1, 2] ∧
    encode .avx2 ⟨64, by decide⟩ [1, 2] .crockford =
      some (completed .crockford [48, 52, 49, 48]) := by
  obtain ⟨hroundTrips, -⟩ := encoding_bijective_iff .avx2 ⟨64, by decide⟩ .rfc4648NoPadding
  obtain ⟨-, hdecode⟩ := encoding_bijective_iff .avx2 ⟨64, by decide⟩ .crockford
  obtain ⟨htext, hencode⟩ := hdecode [48, 52, 49, 48] [1, 2] (by decide) (by decide)
  exact ⟨(hroundTrips [1, 2] (by decide)).mpr (by decide), htext,
    hencode.mpr ⟨by decide, fun i hi => absurd hi i.not_lt_zero⟩⟩

/-- AVX2 builds write the character of quintet 31 where quintet 15 stands. -/
theorem quintet_fifteen_miswritten :
    encode .avx2 ⟨64, by decide⟩ (List.replicate 40 0x7b) .rfc4648NoPadding ≠
      some (encodeText .rfc4648NoPadding (List.replicate 40 0x7b)) := by
  decide +kernel

/-- Half a GiB on a 32-bit target: the text would fit, its length in bits does not. -/
theorem half_gibibyte_not_encoded :
    ¬RoundTrips ⟨32, by decide⟩ .rfc4648NoPadding (List.replicate (2 ^ 29) 0) := by
  apply not_roundTrips
  · rw [List.length_replicate]
    norm_num
  · rw [List.length_replicate]
    norm_num [Encodable, Alphabet.isPadded]

end Runs

end Stdx.Base32
