import Mathlib
import Stdx.Semver.Version

/-!
# The grammar of semantic versions

The Backus–Naur form of Semantic Versioning 2.0.0, one production each.  `fits` is a
condition on the numeric identifiers of the core and of the pre-release; with the
condition that always holds it is the grammar itself.
-/

namespace Stdx.Semver

open Stdx.Foundation

def IsDigit (c : Char) : Prop := c.isDigit

def IsNonDigit (c : Char) : Prop := c.isAlpha ∨ c = '-'

def IsIdentifierCharacter (c : Char) : Prop := IsDigit c ∨ IsNonDigit c

inductive Digits : Text → Prop
  | one {c : Char} : IsDigit c → Digits [c]
  | more {c : Char} {s : Text} : IsDigit c → Digits s → Digits (c :: s)

inductive NumericIdentifier : Text → Prop
  | zero : NumericIdentifier ['0']
  | positive {c : Char} : IsDigit c → c ≠ '0' → NumericIdentifier [c]
  | digits {c : Char} {s : Text} : IsDigit c → c ≠ '0' → Digits s → NumericIdentifier (c :: s)

inductive IdentifierCharacters : Text → Prop
  | one {c : Char} : IsIdentifierCharacter c → IdentifierCharacters [c]
  | more {c : Char} {s : Text} :
      IsIdentifierCharacter c → IdentifierCharacters s → IdentifierCharacters (c :: s)

inductive AlphanumericIdentifier : Text → Prop
  | nonDigit {c : Char} : IsNonDigit c → AlphanumericIdentifier [c]
  | front {c : Char} {s : Text} :
      IsNonDigit c → IdentifierCharacters s → AlphanumericIdentifier (c :: s)
  | back {c : Char} {s : Text} :
      IdentifierCharacters s → IsNonDigit c → AlphanumericIdentifier (s ++ [c])
  | middle {c : Char} {s t : Text} : IdentifierCharacters s → IsNonDigit c →
      IdentifierCharacters t → AlphanumericIdentifier (s ++ c :: t)

inductive PreReleaseIdentifier (fits : Text → Prop) : Text → Prop
  | alphanumeric {s : Text} : AlphanumericIdentifier s → PreReleaseIdentifier fits s
  | numeric {s : Text} : NumericIdentifier s → fits s → PreReleaseIdentifier fits s

inductive BuildIdentifier : Text → Prop
  | alphanumeric {s : Text} : AlphanumericIdentifier s → BuildIdentifier s
  | digits {s : Text} : Digits s → BuildIdentifier s

inductive DotSeparated (identifier : Text → Prop) : Text → Prop
  | one {s : Text} : identifier s → DotSeparated identifier s
  | more {s rest : Text} : identifier s → DotSeparated identifier rest →
      DotSeparated identifier (s ++ '.' :: rest)

inductive VersionCore (fits : Text → Prop) : Text → Prop
  | mk {major minor patch : Text} : NumericIdentifier major → fits major →
      NumericIdentifier minor → fits minor → NumericIdentifier patch → fits patch →
      VersionCore fits (major ++ '.' :: (minor ++ '.' :: patch))

inductive ValidSemver (fits : Text → Prop) : Text → Prop
  | core {core : Text} : VersionCore fits core → ValidSemver fits core
  | preRelease {core pre : Text} : VersionCore fits core →
      DotSeparated (PreReleaseIdentifier fits) pre → ValidSemver fits (core ++ '-' :: pre)
  | build {core build : Text} : VersionCore fits core →
      DotSeparated BuildIdentifier build → ValidSemver fits (core ++ '+' :: build)
  | both {core pre build : Text} : VersionCore fits core →
      DotSeparated (PreReleaseIdentifier fits) pre → DotSeparated BuildIdentifier build →
      ValidSemver fits (core ++ '-' :: (pre ++ '+' :: build))

/-! ## The nonterminals as conditions on characters -/

theorem isIdentifierChar_iff (c : Char) :
    isIdentifierChar c = true ↔ IsIdentifierCharacter c := by
  simp only [isIdentifierChar, Char.isAlphanum, IsIdentifierCharacter, IsDigit, IsNonDigit,
    Bool.or_eq_true, beq_iff_eq]
  tauto

theorem not_isDigit_of_isNonDigit {c : Char} (h : IsNonDigit c) : c.isDigit = false := by
  rcases h with halpha | rfl
  · by_contra hdigit
    obtain ⟨-, hhigh⟩ := (isDigit_iff c).mp (Bool.of_not_eq_false hdigit)
    simp only [Char.isAlpha, Char.isUpper, Char.isLower, Bool.or_eq_true, Bool.and_eq_true,
      decide_eq_true_eq, ge_iff_le, UInt32.le_iff_toNat_le] at halpha
    have hnat : c.val.toNat = c.toNat := rfl
    rcases halpha with ⟨hlow, -⟩ | ⟨hlow, -⟩
    · have : (65 : Nat) ≤ c.val.toNat := hlow
      omega
    · have : (97 : Nat) ≤ c.val.toNat := hlow
      omega
  · decide

theorem isNonDigit_of_not_isDigit {c : Char} (h : IsIdentifierCharacter c)
    (hdigit : c.isDigit = false) : IsNonDigit c :=
  h.resolve_left (by simp [IsDigit, hdigit])

theorem digits_iff (s : Text) : Digits s ↔ s ≠ [] ∧ ∀ c ∈ s, c.isDigit := by
  constructor
  · intro h
    induction h with
    | one hc => exact ⟨by simp, by simpa [IsDigit] using hc⟩
    | more hc _ ih => exact ⟨by simp, by simpa using ⟨hc, ih.2⟩⟩
  · rintro ⟨hne, hall⟩
    induction s with
    | nil => exact absurd rfl hne
    | cons c s ih =>
      have hc : IsDigit c := hall c List.mem_cons_self
      by_cases hs : s = []
      · exact hs ▸ .one hc
      · exact .more hc (ih hs fun d hd => hall d (List.mem_cons_of_mem _ hd))

theorem identifierCharacters_iff (s : Text) :
    IdentifierCharacters s ↔ s ≠ [] ∧ ∀ c ∈ s, IsIdentifierCharacter c := by
  constructor
  · intro h
    induction h with
    | one hc => exact ⟨by simp, by simpa using hc⟩
    | more hc _ ih => exact ⟨by simp, by simpa using ⟨hc, ih.2⟩⟩
  · rintro ⟨hne, hall⟩
    induction s with
    | nil => exact absurd rfl hne
    | cons c s ih =>
      have hc := hall c List.mem_cons_self
      by_cases hs : s = []
      · exact hs ▸ .one hc
      · exact .more hc (ih hs fun d hd => hall d (List.mem_cons_of_mem _ hd))

theorem numericIdentifier_iff (s : Text) :
    NumericIdentifier s ↔ s ≠ [] ∧ (∀ c ∈ s, c.isDigit) ∧ NoLeadingZero s := by
  constructor
  · intro h
    cases h with
    | zero => exact ⟨by simp, by simp, fun _ => rfl⟩
    | positive hc hne => exact ⟨by simp, by simpa [IsDigit] using hc,
      fun h => absurd (by simpa using h) hne⟩
    | digits hc hne hs =>
      have hs := (digits_iff _).mp hs
      exact ⟨by simp, by simpa using ⟨hc, hs.2⟩, fun h => absurd (by simpa using h) hne⟩
  · rintro ⟨hne, hall, hzero⟩
    cases s with
    | nil => exact absurd rfl hne
    | cons c s =>
      have hc : IsDigit c := hall c List.mem_cons_self
      by_cases hhead : c = '0'
      · have := hzero (by simp [hhead])
        rw [this]
        exact .zero
      · by_cases hs : s = []
        · exact hs ▸ .positive hc hhead
        · exact .digits hc hhead
            ((digits_iff s).mpr ⟨hs, fun d hd => hall d (List.mem_cons_of_mem _ hd)⟩)

theorem alphanumericIdentifier_iff (s : Text) :
    AlphanumericIdentifier s ↔ (∀ c ∈ s, IsIdentifierCharacter c) ∧ ∃ c ∈ s, IsNonDigit c := by
  constructor
  · intro h
    cases h with
    | nonDigit hc => simpa using ⟨.inr hc, hc⟩
    | @front c s hc hs =>
      have hs := ((identifierCharacters_iff _).mp hs).2
      exact ⟨by simpa using ⟨.inr hc, hs⟩, c, List.mem_cons_self, hc⟩
    | @back c s hs hc =>
      have hs := ((identifierCharacters_iff _).mp hs).2
      refine ⟨fun d hd => ?_, c, by simp, hc⟩
      rcases List.mem_append.mp hd with hd | hd
      · exact hs d hd
      · exact List.mem_singleton.mp hd ▸ .inr hc
    | @middle c s t hs hc ht =>
      have hs := ((identifierCharacters_iff _).mp hs).2
      have ht := ((identifierCharacters_iff _).mp ht).2
      refine ⟨fun d hd => ?_, c, by simp, hc⟩
      rcases List.mem_append.mp hd with hd | hd
      · exact hs d hd
      · rcases List.mem_cons.mp hd with rfl | hd
        · exact .inr hc
        · exact ht d hd
  · rintro ⟨hall, c, hmem, hc⟩
    obtain ⟨s, t, rfl⟩ := List.append_of_mem hmem
    have hs (hne : s ≠ []) : IdentifierCharacters s :=
      (identifierCharacters_iff s).mpr ⟨hne, fun d hd => hall d (by simp [hd])⟩
    have ht (hne : t ≠ []) : IdentifierCharacters t :=
      (identifierCharacters_iff t).mpr ⟨hne, fun d hd => hall d (by simp [hd])⟩
    by_cases hsne : s = []
    · by_cases htne : t = []
      · rw [hsne, htne]
        exact .nonDigit hc
      · rw [hsne]
        exact .front hc (ht htne)
    · by_cases htne : t = []
      · rw [htne]
        exact .back (hs hsne) hc
      · exact .middle (hs hsne) hc (ht htne)

theorem dotSeparated_iff {identifier : Text → Prop}
    (hdot : ∀ s, identifier s → '.' ∉ s) (s : Text) :
    DotSeparated identifier s ↔ ∀ part ∈ s.splitOn '.', identifier part := by
  constructor
  · intro h
    induction h with
    | one hs =>
      rw [List.splitOn_eq_singleton (hdot _ hs)]
      simpa using hs
    | @more s rest hs _ ih =>
      rw [List.splitOn_append_cons_self_of_not_mem (hdot _ hs)]
      simpa using ⟨hs, ih⟩
  · intro h
    have hjoin : ['.'].intercalate (s.splitOn '.') = s := List.intercalate_splitOn '.'
    have hne : s.splitOn '.' ≠ [] := List.splitOn_ne_nil '.' s
    rw [← hjoin]
    generalize s.splitOn '.' = parts at h hne
    induction parts with
    | nil => exact absurd rfl hne
    | cons part parts ih =>
      have hpart := h part List.mem_cons_self
      cases parts with
      | nil => simpa [List.intercalate] using DotSeparated.one hpart
      | cons next parts =>
        have hrest := ih (fun p hp => h p (List.mem_cons_of_mem _ hp)) (by simp)
        have := DotSeparated.more hpart hrest
        simpa [List.intercalate, List.intersperse] using this

end Stdx.Semver
