import Mathlib.Data.List.GetD
import Stdx.Foundation.Octets

/-!
# Padding to whole blocks

Two messages, each padded with zeros to whole blocks and laid end to end, are determined by
the result and their lengths modulo a word, as long as the second one fits the word.
-/

namespace Stdx.Foundation

def padLength (m length : Nat) : Nat := (m - length % m) % m

def zeroPad (m : Nat) (data : Bytes) : Bytes :=
  data ++ List.replicate (padLength m data.length) 0

theorem padLength_inj {m a b : Nat} (hmod : a % m = b % m)
    (h : a + padLength m a = b + padLength m b) : a = b := by
  rw [padLength, padLength, hmod] at h
  omega

theorem zeroPad_pair_inj {m word : Nat} (hword : m ∣ word) {a b a' b' : Bytes}
    (ha : a.length % word = a'.length % word) (hb : b.length = b'.length)
    (h : zeroPad m a ++ zeroPad m b = zeroPad m a' ++ zeroPad m b') : a = a' ∧ b = b' := by
  have hmod : a.length % m = a'.length % m := by
    rw [← Nat.mod_mod_of_dvd a.length hword, ha, Nat.mod_mod_of_dvd _ hword]
  have hlength : a.length = a'.length := by
    have htotal := congrArg List.length h
    simp only [zeroPad, List.length_append, List.length_replicate, hb] at htotal
    exact padLength_inj hmod (by omega)
  have hpadded : (zeroPad m a).length = (zeroPad m a').length := by
    simp [zeroPad, hlength]
  obtain ⟨hfront, hback⟩ := List.append_inj h hpadded
  exact ⟨(List.append_inj hfront hlength).1, (List.append_inj hback hb).1⟩

theorem getD_take_of_zero {xs : Bytes} {n : Nat} (h : ∀ x ∈ xs.drop n, x = 0) (j : Nat) :
    (xs.take n).getD j 0 = xs.getD j 0 := by
  rcases Nat.lt_or_ge j n with hj | hj
  · simp [List.getD_eq_getElem?_getD, hj]
  · have hnone : (xs.take n).getD j 0 = 0 := by
      rw [List.getD_eq_default]
      rw [List.length_take]
      omega
    rw [hnone]
    rcases Nat.lt_or_ge j xs.length with hlt | hge
    · rw [List.getD_eq_getElem _ _ hlt]
      apply (h _ ?_).symm
      rw [List.mem_drop_iff_getElem]
      exact ⟨j - n, by omega, by simp [Nat.add_sub_cancel' hj]⟩
    · rw [List.getD_eq_default _ _ hge]

/-! ## Texts that do not end in a pad -/

/-- The last character, if there is one, is no pad. -/
def EndsPlain (pad : UInt8) (content : Bytes) : Prop :=
  ∀ j, j + 1 = content.length → content.getD j 0 ≠ pad

theorem endsPlain_of_ne {pad : UInt8} {content : Bytes} (h : ∀ c ∈ content, c ≠ pad) :
    EndsPlain pad content := by
  intro j hj
  rw [List.getD_eq_getElem?_getD, List.getElem?_eq_getElem (by omega), Option.getD_some]
  exact h _ (List.getElem_mem _)

theorem EndsPlain.drop {pad : UInt8} {content : Bytes} (h : EndsPlain pad content) (n : Nat) :
    EndsPlain pad (content.drop n) := by
  intro j hj
  rw [List.length_drop] at hj
  rw [List.getD_eq_getElem?_getD, List.getElem?_drop, ← List.getD_eq_getElem?_getD]
  exact h (n + j) (by omega)

end Stdx.Foundation
