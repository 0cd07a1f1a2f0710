import Stdx.Foundation.Octets

/-!
# Text as octets

`str::as_bytes` and `str::from_utf8`, on the strings of Lean.
-/

namespace Stdx.Foundation

def utf8 (s : String) : Bytes := s.toByteArray.data.toList

def fromUtf8 (octets : Bytes) : Option String := String.fromUTF8? ⟨octets.toArray⟩

@[simp] theorem fromUtf8_utf8 (s : String) : fromUtf8 (utf8 s) = some s := by
  have harray : (⟨(utf8 s).toArray⟩ : ByteArray) = s.toByteArray := by
    rw [utf8, Array.toArray_toList]
  rw [fromUtf8, harray, String.fromUTF8?, dif_pos s.isValidUTF8]
  rfl

theorem utf8_of_fromUtf8 {octets : Bytes} {s : String} (h : fromUtf8 octets = some s) :
    utf8 s = octets := by
  rw [fromUtf8, String.fromUTF8?] at h
  split at h
  · obtain rfl := Option.some.inj h
    rfl
  · cases h

/-! ## ASCII -/

theorem utf8_ofList_ascii {octets : Bytes} (h : ∀ octet ∈ octets, octet.toNat < 128) :
    utf8 (String.ofList (octets.map fun octet => Char.ofNat octet.toNat)) = octets := by
  have hencode (octet : UInt8) (hlt : octet.toNat < 128) :
      String.utf8EncodeChar (Char.ofNat octet.toNat) = [octet] := by
    have hbyte : octet = UInt8.ofNat octet.toNat := by simp
    rw [hbyte]
    generalize octet.toNat = n at hlt
    interval_cases n <;> rfl
  have htoList : ∀ octets : Bytes, (∀ octet ∈ octets, octet.toNat < 128) →
      (octets.map fun octet => Char.ofNat octet.toNat).utf8Encode.data.toList = octets := by
    intro octets h
    induction octets with
    | nil => rfl
    | cons octet octets ih =>
      rw [List.map_cons, List.utf8Encode_cons, List.utf8Encode_singleton,
        hencode octet (h octet (by simp))]
      simp [ih fun o ho => h o (by simp [ho])]
  rw [utf8, String.toByteArray_ofList]
  exact htoList octets h

theorem fromUtf8_ascii {octets : Bytes} (h : ∀ octet ∈ octets, octet.toNat < 128) :
    fromUtf8 octets =
      some (String.ofList (octets.map fun octet => Char.ofNat octet.toNat)) := by
  conv_lhs => rw [← utf8_ofList_ascii h]
  exact fromUtf8_utf8 _

theorem fromUtf8_of_ascii {octets : Bytes} (h : ∀ octet ∈ octets, octet.toNat < 128) :
    ∃ s, fromUtf8 octets = some s :=
  ⟨_, fromUtf8_ascii h⟩

end Stdx.Foundation
