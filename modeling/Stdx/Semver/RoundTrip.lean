import Mathlib
import Stdx.Foundation.Outcome
import Stdx.Semver.Grammar

/-!
# Parsing and printing

A version is valid if the grammar allows each of its parts.  `parse` accepts exactly what
`Display` prints of valid versions, and `Display` prints exactly the grammar.
-/

namespace Stdx.Semver

open Stdx.Foundation

def FitsU64 (s : Text) : Prop := decimalValue s ≤ u64Max

def Identifier.Valid : Identifier → Prop
  | .numeric n => n ≤ u64Max
  | .alpha s => AlphanumericIdentifier s

def PreRelease.Valid (preRelease : PreRelease) : Prop :=
  preRelease.identifiers ≠ [] ∧ ∀ identifier ∈ preRelease.identifiers, identifier.Valid

def BuildMetadata.Valid (build : BuildMetadata) : Prop := DotSeparated BuildIdentifier build.raw

structure Version.Valid (v : Version) : Prop where
  major_le : v.major ≤ u64Max
  minor_le : v.minor ≤ u64Max
  patch_le : v.patch ≤ u64Max
  preRelease_valid : ∀ preRelease, v.preRelease = some preRelease → preRelease.Valid
  build_valid : ∀ build, v.build = some build → build.Valid

/-! ## Numbers -/

theorem numericIdentifier_decimal (n : Nat) : NumericIdentifier (decimal n) :=
  (numericIdentifier_iff _).mpr
    ⟨decimal_ne_nil n, fun _ hc => isDigit_of_mem_decimal hc, noLeadingZero_decimal n⟩

theorem decimal_of_numericIdentifier {s : Text} (h : NumericIdentifier s) :
    decimal (decimalValue s) = s := by
  obtain ⟨hne, hdigits, hzero⟩ := (numericIdentifier_iff s).mp h
  exact decimal_decimalValue hne hdigits hzero

theorem numericIdentifier_fits_iff (s : Text) :
    NumericIdentifier s ∧ FitsU64 s ↔ ∃ n ≤ u64Max, decimal n = s := by
  constructor
  · rintro ⟨hs, hfits⟩
    exact ⟨decimalValue s, hfits, decimal_of_numericIdentifier hs⟩
  · rintro ⟨n, hn, rfl⟩
    exact ⟨numericIdentifier_decimal n, by rwa [FitsU64, decimalValue_decimal]⟩

theorem parseU64_digits {s : Text} (hne : s ≠ []) (hdigits : ∀ c ∈ s, c.isDigit) (n : Nat) :
    parseU64 s = .ok n ↔ decimalValue s = n ∧ n ≤ u64Max := by
  rw [parseU64, parseUnsigned_digits u64Max hne hdigits]
  by_cases hfits : decimalValue s ≤ u64Max
  · rw [if_pos hfits]
    simp only [Except.ok.injEq]
    exact ⟨fun h => ⟨h, h ▸ hfits⟩, fun h => h.1⟩
  · rw [if_neg hfits]
    exact ⟨nofun, fun ⟨h, hle⟩ => absurd (h ▸ hle) hfits⟩

theorem leadingZero_iff {s : Text} (hne : s ≠ []) :
    (s.length > 1 ∧ startsWithZero s = true) ↔ ¬ NoLeadingZero s := by
  rw [startsWithZero, beq_iff_eq, NoLeadingZero]
  constructor
  · rintro ⟨hlen, hhead⟩ hzero
    rw [hzero hhead] at hlen
    simp at hlen
  · intro h
    by_cases hhead : s.head? = some '0'
    · refine ⟨?_, hhead⟩
      by_contra hlen
      apply h
      intro _
      obtain ⟨c, rfl⟩ := List.length_eq_one_iff.mp
        (show s.length = 1 by have := List.length_pos_of_ne_nil hne; omega)
      simpa using hhead
    · exact absurd (fun h => absurd h hhead) h

theorem parseNumber_digits {s : Text} (hne : s ≠ []) (hdigits : ∀ c ∈ s, c.isDigit) (n : Nat) :
    parseNumber s = .ok n ↔ decimal n = s ∧ n ≤ u64Max := by
  rw [parseNumber]
  by_cases hzero : NoLeadingZero s
  · rw [if_neg (by rw [leadingZero_iff hne]; simpa using hzero), parseU64_digits hne hdigits]
    constructor
    · rintro ⟨rfl, hn⟩
      exact ⟨decimal_decimalValue hne hdigits hzero, hn⟩
    · rintro ⟨rfl, hn⟩
      exact ⟨decimalValue_decimal n, hn⟩
  · rw [if_pos ((leadingZero_iff hne).mpr hzero)]
    exact ⟨nofun, fun ⟨h, _⟩ => absurd (h ▸ noLeadingZero_decimal n) hzero⟩

/-! ## A number of the core -/

def EndsDigits (rest : Text) : Prop := ∀ c, rest.head? = some c → c.isDigit = false

theorem findIdx_decimal (n : Nat) {rest : Text} (hrest : EndsDigits rest) :
    (decimal n ++ rest).findIdx (fun c => !c.isDigit) = (decimal n).length := by
  rw [List.findIdx_append, List.findIdx_eq_length_of_false fun c hc => by
    simp [isDigit_of_mem_decimal hc]]
  simp only [lt_irrefl, if_false]
  cases rest with
  | nil => simp
  | cons c rest => simp [List.findIdx_cons, hrest c rfl]

theorem takeNumber_decimal {n : Nat} (hn : n ≤ u64Max) {rest : Text} (hrest : EndsDigits rest) :
    takeNumber (decimal n ++ rest) = .ok (n, rest) := by
  have hne := decimal_ne_nil n
  have hlen := List.length_pos_of_ne_nil hne
  have hcheck : checkDigits (decimal n ++ rest) = .ok (decimal n).length := by
    rw [checkDigits, if_neg (by simp [hne]), findIdx_decimal n hrest]
    cases h : (decimal n).length with
    | zero => omega
    | succ k => rfl
  have hparse : parseNumber (decimal n) = .ok n :=
    (parseNumber_digits hne (fun _ hc => isDigit_of_mem_decimal hc) n).mpr ⟨rfl, hn⟩
  rw [takeNumber, except_bind_eq_ok]
  refine ⟨_, hcheck, ?_⟩
  rw [List.take_left, List.drop_left, except_bind_eq_ok]
  exact ⟨n, hparse, rfl⟩

theorem takeNumber_sound {s rest : Text} {n : Nat} (h : takeNumber s = .ok (n, rest)) :
    n ≤ u64Max ∧ s = decimal n ++ rest := by
  obtain ⟨after, hcheck, h⟩ := except_bind_eq_ok.mp h
  obtain ⟨n', hparse, h⟩ := except_bind_eq_ok.mp h
  obtain ⟨rfl, rfl⟩ : n' = n ∧ s.drop after = rest := by simpa using h
  rw [checkDigits] at hcheck
  split at hcheck
  · cases hcheck
  · next hs =>
    split at hcheck
    · cases hcheck
    · next pos hfind =>
      obtain rfl : pos + 1 = after := Except.ok.inj hcheck
      have hdigits : ∀ c ∈ s.take (pos + 1), c.isDigit := by
        intro c hc
        obtain ⟨i, hi, rfl⟩ := List.mem_iff_getElem.mp hc
        rw [List.length_take] at hi
        have hlt : i < s.findIdx fun c => !c.isDigit := by omega
        have := List.not_of_lt_findIdx hlt
        simpa using this
      have hne : s.take (pos + 1) ≠ [] := by simp [hs]
      obtain ⟨hdecimal, hn⟩ := (parseNumber_digits hne hdigits n').mp hparse
      exact ⟨hn, by rw [hdecimal, List.take_append_drop]⟩

/-! ## Identifiers -/

theorem not_dot_mem_of_identifier {s : Text} (h : ∀ c ∈ s, IsIdentifierCharacter c) :
    '.' ∉ s := by
  intro hmem
  have := (isIdentifierChar_iff '.').mpr (h '.' hmem)
  revert this
  decide

theorem identifier_characters {identifier : Identifier} (h : identifier.Valid) :
    identifier.display ≠ [] ∧ ∀ c ∈ identifier.display, IsIdentifierCharacter c := by
  cases identifier with
  | numeric n => exact ⟨decimal_ne_nil n, fun c hc => .inl (isDigit_of_mem_decimal hc)⟩
  | alpha s =>
    obtain ⟨hall, c, hmem, -⟩ := (alphanumericIdentifier_iff s).mp h
    exact ⟨List.ne_nil_of_mem hmem, hall⟩

theorem identifier_parse_iff (s : Text) (identifier : Identifier) :
    Identifier.parse s = .ok identifier ↔ identifier.Valid ∧ identifier.display = s := by
  rw [Identifier.parse]
  by_cases hne : s = []
  · rw [if_pos hne]
    refine ⟨nofun, fun ⟨hvalid, hdisplay⟩ => ?_⟩
    exact absurd (hdisplay.trans hne) (identifier_characters hvalid).1
  rw [if_neg hne]
  by_cases hchars : s.all isIdentifierChar = true
  · rw [if_neg (by simpa using hchars)]
    have hall : ∀ c ∈ s, IsIdentifierCharacter c := fun c hc =>
      (isIdentifierChar_iff c).mp (List.all_eq_true.mp hchars c hc)
    by_cases hdigits : s.all Char.isDigit = true
    · have hdigits' := List.all_eq_true.mp hdigits
      rw [if_pos hdigits]
      have hnumber := parseNumber_digits hne hdigits'
      have hparse : (if s.length > 1 ∧ startsWithZero s = true then .error .leadingZero else do
          let n ← parseU64 s
          .ok (.numeric n)) = (do
            let n ← parseNumber s
            .ok (.numeric n) : Except ParseError Identifier) := by
        rw [parseNumber]
        split <;> rfl
      rw [hparse, except_bind_eq_ok]
      constructor
      · rintro ⟨n, hn, hok⟩
        obtain ⟨hdecimal, hle⟩ := (hnumber n).mp hn
        obtain rfl := Except.ok.inj hok
        exact ⟨hle, hdecimal⟩
      · rintro ⟨hvalid, hdisplay⟩
        cases identifier with
        | numeric n => exact ⟨n, (hnumber n).mpr ⟨hdisplay, hvalid⟩, rfl⟩
        | alpha t =>
          obtain ⟨-, c, hmem, hc⟩ := (alphanumericIdentifier_iff t).mp hvalid
          obtain rfl : t = s := hdisplay
          have := not_isDigit_of_isNonDigit hc
          rw [hdigits' c hmem] at this
          cases this
    · rw [if_neg hdigits]
      obtain ⟨c, hmem, hc⟩ : ∃ c ∈ s, c.isDigit = false := by
        simpa using hdigits
      constructor
      · rintro ⟨⟩
        exact ⟨(alphanumericIdentifier_iff s).mpr
          ⟨hall, c, hmem, isNonDigit_of_not_isDigit (hall c hmem) hc⟩, rfl⟩
      · rintro ⟨hvalid, hdisplay⟩
        cases identifier with
        | alpha t => exact congrArg _ (congrArg _ hdisplay.symm)
        | numeric n =>
          have hdecimal : decimal n = s := hdisplay
          have hdigit : c.isDigit = true :=
            isDigit_of_mem_decimal (n := n) (by rwa [hdecimal])
          rw [hc] at hdigit
          cases hdigit
  · rw [if_pos (by simpa using hchars)]
    refine ⟨nofun, fun ⟨hvalid, hdisplay⟩ => absurd ?_ hchars⟩
    rw [List.all_eq_true]
    intro c hc
    exact (isIdentifierChar_iff c).mpr ((identifier_characters hvalid).2 c (hdisplay ▸ hc))

theorem preReleaseIdentifier_iff (s : Text) :
    PreReleaseIdentifier FitsU64 s ↔ ∃ identifier : Identifier,
      identifier.Valid ∧ identifier.display = s := by
  constructor
  · intro h
    cases h with
    | alphanumeric hs => exact ⟨.alpha s, hs, rfl⟩
    | numeric hs hfits =>
      obtain ⟨n, hn, hdecimal⟩ := (numericIdentifier_fits_iff s).mp ⟨hs, hfits⟩
      exact ⟨.numeric n, hn, hdecimal⟩
  · rintro ⟨identifier, hvalid, rfl⟩
    cases identifier with
    | numeric n =>
      obtain ⟨hs, hfits⟩ := (numericIdentifier_fits_iff _).mpr ⟨n, hvalid, rfl⟩
      exact .numeric hs hfits
    | alpha s => exact .alphanumeric hvalid

/-! ## Pre-releases -/

theorem parseIdentifiers_iff (parts : List Text) (identifiers : List Identifier) :
    parseIdentifiers parts = .ok identifiers ↔
      (∀ identifier ∈ identifiers, identifier.Valid) ∧
        identifiers.map Identifier.display = parts := by
  induction parts generalizing identifiers with
  | nil =>
    rw [parseIdentifiers, List.map_eq_nil_iff]
    exact ⟨fun h => by cases h; simp, fun h => by rw [h.2]⟩
  | cons part parts ih =>
    rw [parseIdentifiers, except_bind_eq_ok]
    constructor
    · rintro ⟨identifier, hpart, h⟩
      obtain ⟨rest, hrest, h⟩ := except_bind_eq_ok.mp h
      obtain rfl := Except.ok.inj h
      obtain ⟨hvalid, hdisplay⟩ := (identifier_parse_iff _ _).mp hpart
      obtain ⟨hvalids, hdisplays⟩ := (ih rest).mp hrest
      exact ⟨by simpa using ⟨hvalid, hvalids⟩, by simp [hdisplay, hdisplays]⟩
    · rintro ⟨hvalid, hdisplay⟩
      cases identifiers with
      | nil => cases hdisplay
      | cons identifier rest =>
        obtain ⟨hhead, htail⟩ := List.cons.inj hdisplay
        refine ⟨identifier, (identifier_parse_iff _ _).mpr
          ⟨hvalid _ List.mem_cons_self, hhead⟩, ?_⟩
        rw [except_bind_eq_ok]
        exact ⟨rest, (ih rest).mpr
          ⟨fun i hi => hvalid i (List.mem_cons_of_mem _ hi), htail⟩, rfl⟩

theorem splitOn_display {preRelease : PreRelease} (h : preRelease.Valid) :
    preRelease.display.splitOn '.' = preRelease.identifiers.map Identifier.display := by
  rw [PreRelease.display]
  apply List.splitOn_intercalate
  · intro part hmem
    obtain ⟨identifier, hidentifier, rfl⟩ := List.mem_map.mp hmem
    exact not_dot_mem_of_identifier (identifier_characters (h.2 _ hidentifier)).2
  · simpa using h.1

theorem preRelease_parse_iff (s : Text) (preRelease : PreRelease) :
    PreRelease.parse s = .ok preRelease ↔ preRelease.Valid ∧ preRelease.display = s := by
  rw [PreRelease.parse]
  constructor
  · intro h
    split at h
    · cases h
    · obtain ⟨identifiers, hparts, h⟩ := except_bind_eq_ok.mp h
      obtain rfl := Except.ok.inj h
      obtain ⟨hvalid, hdisplay⟩ := (parseIdentifiers_iff _ _).mp hparts
      refine ⟨⟨?_, hvalid⟩, ?_⟩
      · rintro hnil
        rw [show identifiers = [] from hnil] at hdisplay
        exact List.splitOn_ne_nil '.' s hdisplay.symm
      · rw [PreRelease.display, hdisplay]
        exact List.intercalate_splitOn '.'
  · rintro ⟨hvalid, rfl⟩
    have hsplit := splitOn_display hvalid
    have hne : preRelease.display ≠ [] := by
      intro hnil
      obtain ⟨identifier, rest, hlist⟩ := List.exists_cons_of_ne_nil hvalid.1
      have hnonempty := (identifier_characters (hvalid.2 identifier (by simp [hlist]))).1
      rw [hnil, hlist] at hsplit
      simp only [List.splitOn_nil, List.map_cons, List.cons.injEq] at hsplit
      exact hnonempty hsplit.1.symm
    rw [if_neg hne, except_bind_eq_ok]
    exact ⟨preRelease.identifiers, (parseIdentifiers_iff _ _).mpr ⟨hvalid.2, hsplit.symm⟩, rfl⟩

theorem preRelease_grammar_iff (s : Text) :
    DotSeparated (PreReleaseIdentifier FitsU64) s ↔ ∃ preRelease : PreRelease,
      preRelease.Valid ∧ preRelease.display = s := by
  have hdot : ∀ part, PreReleaseIdentifier FitsU64 part → '.' ∉ part := by
    intro part hpart
    obtain ⟨identifier, hvalid, rfl⟩ := (preReleaseIdentifier_iff part).mp hpart
    exact not_dot_mem_of_identifier (identifier_characters hvalid).2
  rw [dotSeparated_iff hdot]
  constructor
  · intro h
    have hparts : ∃ identifiers : List Identifier, (∀ i ∈ identifiers, i.Valid) ∧
        identifiers.map Identifier.display = s.splitOn '.' := by
      generalize s.splitOn '.' = parts at h
      induction parts with
      | nil => exact ⟨[], by simp, rfl⟩
      | cons part parts ih =>
        obtain ⟨identifier, hvalid, hdisplay⟩ :=
          (preReleaseIdentifier_iff part).mp (h part List.mem_cons_self)
        obtain ⟨identifiers, hvalids, hdisplays⟩ :=
          ih fun p hp => h p (List.mem_cons_of_mem _ hp)
        exact ⟨identifier :: identifiers, by simpa using ⟨hvalid, hvalids⟩,
          by simp [hdisplay, hdisplays]⟩
    obtain ⟨identifiers, hvalid, hdisplay⟩ := hparts
    refine ⟨⟨identifiers⟩, ⟨?_, hvalid⟩, ?_⟩
    · rintro hnil
      rw [show identifiers = [] from hnil] at hdisplay
      exact List.splitOn_ne_nil '.' s hdisplay.symm
    · rw [PreRelease.display, hdisplay]
      exact List.intercalate_splitOn '.'
  · rintro ⟨preRelease, hvalid, rfl⟩ part hpart
    rw [splitOn_display hvalid] at hpart
    obtain ⟨identifier, hmem, rfl⟩ := List.mem_map.mp hpart
    exact (preReleaseIdentifier_iff _).mpr ⟨identifier, hvalid.2 _ hmem, rfl⟩

/-! ## Build metadata -/

theorem buildIdentifier_iff (s : Text) :
    BuildIdentifier s ↔ s ≠ [] ∧ ∀ c ∈ s, IsIdentifierCharacter c := by
  constructor
  · intro h
    cases h with
    | alphanumeric hs =>
      obtain ⟨hall, c, hmem, -⟩ := (alphanumericIdentifier_iff s).mp hs
      exact ⟨List.ne_nil_of_mem hmem, hall⟩
    | digits hs =>
      obtain ⟨hne, hall⟩ := (digits_iff s).mp hs
      exact ⟨hne, fun c hc => .inl (hall c hc)⟩
  · rintro ⟨hne, hall⟩
    by_cases hdigits : ∀ c ∈ s, c.isDigit
    · exact .digits ((digits_iff s).mpr ⟨hne, hdigits⟩)
    · obtain ⟨c, hmem, hc⟩ : ∃ c ∈ s, c.isDigit = false := by simpa using hdigits
      exact .alphanumeric ((alphanumericIdentifier_iff s).mpr
        ⟨hall, c, hmem, isNonDigit_of_not_isDigit (hall c hmem) hc⟩)

theorem checkBuildParts_iff (parts : List Text) :
    checkBuildParts parts = .ok () ↔ ∀ part ∈ parts, BuildIdentifier part := by
  induction parts with
  | nil => simp [checkBuildParts]
  | cons part parts ih =>
    have hchars : part.all isIdentifierChar = true ↔ ∀ c ∈ part, IsIdentifierCharacter c := by
      rw [List.all_eq_true]
      exact forall₂_congr fun c _ => isIdentifierChar_iff c
    rw [checkBuildParts, List.forall_mem_cons, buildIdentifier_iff, ← hchars, ← ih]
    split_ifs <;> simp_all

theorem buildMetadata_parse_iff (s : Text) (build : BuildMetadata) :
    BuildMetadata.parse s = .ok build ↔ build.Valid ∧ build.raw = s := by
  have hdot : ∀ part, BuildIdentifier part → '.' ∉ part := fun part hpart =>
    not_dot_mem_of_identifier ((buildIdentifier_iff part).mp hpart).2
  have hgrammar := dotSeparated_iff hdot s
  rw [BuildMetadata.parse]
  constructor
  · intro h
    split at h
    · cases h
    · obtain ⟨⟨⟩, hparts, h⟩ := except_bind_eq_ok.mp h
      obtain rfl := Except.ok.inj h
      exact ⟨hgrammar.mpr ((checkBuildParts_iff _).mp hparts), rfl⟩
  · rintro ⟨hvalid, rfl⟩
    have hparts := hgrammar.mp hvalid
    have hne : build.raw ≠ [] := by
      intro hnil
      have hempty := hparts [] (by simp [hnil])
      exact ((buildIdentifier_iff []).mp hempty).1 rfl
    rw [if_neg hne, except_bind_eq_ok]
    exact ⟨(), (checkBuildParts_iff _).mpr hparts, rfl⟩

/-! ## Versions -/

theorem mem_intercalate {c separator : Char} {parts : List Text}
    (h : c ∈ [separator].intercalate parts) : c = separator ∨ ∃ part ∈ parts, c ∈ part := by
  induction parts with
  | nil => simp [List.intercalate] at h
  | cons part parts ih =>
    cases parts with
    | nil => exact .inr ⟨part, by simp, by simpa [List.intercalate] using h⟩
    | cons next parts =>
      have h' : c ∈ part ++ separator :: [separator].intercalate (next :: parts) := by
        simpa [List.intercalate] using h
      rcases List.mem_append.mp h' with hpart | hrest
      · exact .inr ⟨part, by simp, hpart⟩
      · rcases List.mem_cons.mp hrest with heq | hrest
        · exact .inl heq
        · rcases ih hrest with heq | ⟨other, hmem, hother⟩
          · exact .inl heq
          · exact .inr ⟨other, List.mem_cons_of_mem _ hmem, hother⟩

theorem not_plus_mem_preRelease {preRelease : PreRelease} (h : preRelease.Valid) :
    '+' ∉ preRelease.display := by
  intro hmem
  rcases mem_intercalate hmem with hdot | ⟨part, hpart, hplus⟩
  · revert hdot
    decide
  · obtain ⟨identifier, hidentifier, rfl⟩ := List.mem_map.mp hpart
    have := (isIdentifierChar_iff '+').mpr
      ((identifier_characters (h.2 _ hidentifier)).2 '+' hplus)
    revert this
    decide

theorem parsePreRelease_display {preRelease : Option PreRelease} {build : Option BuildMetadata}
    (h : ∀ p, preRelease = some p → p.Valid) :
    parsePreRelease (displayPreRelease preRelease ++ displayBuild build) =
      .ok (preRelease, displayBuild build) := by
  cases preRelease with
  | none => cases build <;> rfl
  | some p =>
    have hvalid := h p rfl
    have hfind : (p.display ++ displayBuild build).findIdx (· == '+') = p.display.length := by
      rw [List.findIdx_append, List.findIdx_eq_length_of_false fun c hc => by
        have hc' : c ≠ '+' := fun heq => not_plus_mem_preRelease hvalid (heq ▸ hc)
        simp [hc']]
      cases build <;> simp [displayBuild, List.findIdx_cons]
    rw [displayPreRelease, List.cons_append, parsePreRelease, hfind, List.take_left,
      List.drop_left, except_bind_eq_ok]
    exact ⟨p, (preRelease_parse_iff _ _).mpr ⟨hvalid, rfl⟩, rfl⟩

theorem parsePreRelease_sound {s rest : Text} {preRelease : Option PreRelease}
    (h : parsePreRelease s = .ok (preRelease, rest)) :
    (∀ p, preRelease = some p → p.Valid) ∧ s = displayPreRelease preRelease ++ rest := by
  unfold parsePreRelease at h
  split at h
  · next r =>
    obtain ⟨p, hparse, h⟩ := except_bind_eq_ok.mp h
    obtain ⟨rfl, rfl⟩ : some p = preRelease ∧ r.drop (r.findIdx (· == '+')) = rest := by
      simpa using h
    obtain ⟨hvalid, hdisplay⟩ := (preRelease_parse_iff _ _).mp hparse
    refine ⟨fun q hq => Option.some.inj hq ▸ hvalid, ?_⟩
    rw [displayPreRelease, hdisplay, List.cons_append, List.take_append_drop]
  · obtain ⟨rfl, rfl⟩ : none = preRelease ∧ s = rest := by simpa using h
    exact ⟨nofun, rfl⟩

theorem parseBuild_iff (s : Text) (build : Option BuildMetadata) :
    parseBuild s = .ok build ↔ (∀ b, build = some b → b.Valid) ∧ displayBuild build = s := by
  unfold parseBuild
  split
  · next r =>
    rw [except_bind_eq_ok]
    constructor
    · rintro ⟨b, hparse, h⟩
      obtain rfl := Except.ok.inj h
      obtain ⟨hvalid, hraw⟩ := (buildMetadata_parse_iff _ _).mp hparse
      exact ⟨fun b' hb' => Option.some.inj hb' ▸ hvalid, by rw [displayBuild, hraw]⟩
    · rintro ⟨hvalid, hdisplay⟩
      cases build with
      | none => cases hdisplay
      | some b =>
        exact ⟨b, (buildMetadata_parse_iff _ _).mpr
          ⟨hvalid b rfl, (List.cons.inj hdisplay).2⟩, rfl⟩
  · next hplus =>
    cases build with
    | none =>
      by_cases hs : s = []
      · simp [hs, displayBuild]
      · simp [hs, displayBuild, eq_comm]
    | some b =>
      constructor
      · intro h
        split at h <;> cases h
      · rintro ⟨-, hdisplay⟩
        exact absurd hdisplay.symm (hplus b.raw)

theorem endsDigits_dot (s : Text) : EndsDigits ('.' :: s) := by
  intro c hc
  obtain rfl : '.' = c := by simpa using hc
  decide

theorem endsDigits_tail (preRelease : Option PreRelease) (build : Option BuildMetadata) :
    EndsDigits (displayPreRelease preRelease ++ displayBuild build) := by
  intro c hc
  cases preRelease with
  | some p =>
    obtain rfl : '-' = c := by simpa [displayPreRelease] using hc
    decide
  | none =>
    cases build with
    | some b =>
      obtain rfl : '+' = c := by simpa [displayPreRelease, displayBuild] using hc
      decide
    | none => simp [displayPreRelease, displayBuild] at hc

theorem parse_display {v : Version} (h : v.Valid) : parse v.display = .ok v := by
  have hne : v.display ≠ [] := by simp [Version.display]
  rw [parse, if_neg hne, Version.display, takeNumber_decimal h.major_le (endsDigits_dot _)]
  change (takeNumber (decimal v.minor ++ _)).bind _ = _
  rw [takeNumber_decimal h.minor_le (endsDigits_dot _)]
  change (takeNumber (decimal v.patch ++ _)).bind _ = _
  rw [takeNumber_decimal h.patch_le (endsDigits_tail _ _)]
  change (parsePreRelease _).bind _ = _
  rw [parsePreRelease_display h.preRelease_valid]
  change (parseBuild _).bind _ = _
  rw [(parseBuild_iff _ _).mpr ⟨h.build_valid, rfl⟩]
  rfl

theorem expectDot_eq_ok {s rest : Text} (h : expectDot s = .ok rest) : s = '.' :: rest := by
  unfold expectDot at h
  split at h
  · rw [Except.ok.inj h]
  · cases h

theorem parse_sound {s : Text} {v : Version} (h : parse s = .ok v) :
    v.Valid ∧ v.display = s := by
  rw [parse] at h
  split at h
  · cases h
  · obtain ⟨⟨major, rest⟩, hmajor, h⟩ := except_bind_eq_ok.mp h
    obtain ⟨rest₁, hdot₁, h⟩ := except_bind_eq_ok.mp h
    obtain ⟨⟨minor, rest₂⟩, hminor, h⟩ := except_bind_eq_ok.mp h
    obtain ⟨rest₃, hdot₂, h⟩ := except_bind_eq_ok.mp h
    obtain ⟨⟨patch, rest₄⟩, hpatch, h⟩ := except_bind_eq_ok.mp h
    obtain ⟨⟨preRelease, rest₅⟩, hpre, h⟩ := except_bind_eq_ok.mp h
    obtain ⟨build, hbuild, h⟩ := except_bind_eq_ok.mp h
    obtain rfl := Except.ok.inj h
    obtain ⟨hmajorLe, rfl⟩ := takeNumber_sound hmajor
    obtain rfl := expectDot_eq_ok hdot₁
    obtain ⟨hminorLe, rfl⟩ := takeNumber_sound hminor
    obtain rfl := expectDot_eq_ok hdot₂
    obtain ⟨hpatchLe, rfl⟩ := takeNumber_sound hpatch
    obtain ⟨hpreValid, rfl⟩ := parsePreRelease_sound hpre
    obtain ⟨hbuildValid, rfl⟩ := (parseBuild_iff _ _).mp hbuild
    exact ⟨⟨hmajorLe, hminorLe, hpatchLe, hpreValid, hbuildValid⟩, rfl⟩

theorem versionCore_iff (s : Text) :
    VersionCore FitsU64 s ↔ ∃ major minor patch : Nat,
      (major ≤ u64Max ∧ minor ≤ u64Max ∧ patch ≤ u64Max) ∧
      decimal major ++ '.' :: (decimal minor ++ '.' :: decimal patch) = s := by
  constructor
  · rintro ⟨hmajor, hfits₁, hminor, hfits₂, hpatch, hfits₃⟩
    obtain ⟨major, hle₁, rfl⟩ := (numericIdentifier_fits_iff _).mp ⟨hmajor, hfits₁⟩
    obtain ⟨minor, hle₂, rfl⟩ := (numericIdentifier_fits_iff _).mp ⟨hminor, hfits₂⟩
    obtain ⟨patch, hle₃, rfl⟩ := (numericIdentifier_fits_iff _).mp ⟨hpatch, hfits₃⟩
    exact ⟨major, minor, patch, ⟨hle₁, hle₂, hle₃⟩, rfl⟩
  · rintro ⟨major, minor, patch, ⟨hle₁, hle₂, hle₃⟩, rfl⟩
    obtain ⟨hmajor, hfits₁⟩ := (numericIdentifier_fits_iff _).mpr ⟨major, hle₁, rfl⟩
    obtain ⟨hminor, hfits₂⟩ := (numericIdentifier_fits_iff _).mpr ⟨minor, hle₂, rfl⟩
    obtain ⟨hpatch, hfits₃⟩ := (numericIdentifier_fits_iff _).mpr ⟨patch, hle₃, rfl⟩
    exact .mk hmajor hfits₁ hminor hfits₂ hpatch hfits₃

theorem validSemver_iff (s : Text) :
    ValidSemver FitsU64 s ↔ ∃ v : Version, v.Valid ∧ v.display = s := by
  constructor
  · intro h
    cases h with
    | core hcore =>
      obtain ⟨major, minor, patch, ⟨h₁, h₂, h₃⟩, rfl⟩ := (versionCore_iff _).mp hcore
      refine ⟨⟨major, minor, patch, none, none⟩, ⟨h₁, h₂, h₃, nofun, nofun⟩, ?_⟩
      simp [Version.display, displayPreRelease, displayBuild]
    | preRelease hcore hpre =>
      obtain ⟨major, minor, patch, ⟨h₁, h₂, h₃⟩, rfl⟩ := (versionCore_iff _).mp hcore
      obtain ⟨p, hp, rfl⟩ := (preRelease_grammar_iff _).mp hpre
      refine ⟨⟨major, minor, patch, some p, none⟩,
        ⟨h₁, h₂, h₃, fun q hq => Option.some.inj hq ▸ hp, nofun⟩, ?_⟩
      simp [Version.display, displayPreRelease, displayBuild]
    | @build core raw hcore hbuild =>
      obtain ⟨major, minor, patch, ⟨h₁, h₂, h₃⟩, rfl⟩ := (versionCore_iff _).mp hcore
      refine ⟨⟨major, minor, patch, none, some ⟨raw⟩⟩,
        ⟨h₁, h₂, h₃, nofun, fun b hb => Option.some.inj hb ▸ hbuild⟩, ?_⟩
      simp [Version.display, displayPreRelease, displayBuild]
    | @both core pre raw hcore hpre hbuild =>
      obtain ⟨major, minor, patch, ⟨h₁, h₂, h₃⟩, rfl⟩ := (versionCore_iff _).mp hcore
      obtain ⟨p, hp, rfl⟩ := (preRelease_grammar_iff _).mp hpre
      refine ⟨⟨major, minor, patch, some p, some ⟨raw⟩⟩,
        ⟨h₁, h₂, h₃, fun q hq => Option.some.inj hq ▸ hp,
          fun b hb => Option.some.inj hb ▸ hbuild⟩, ?_⟩
      simp [Version.display, displayPreRelease, displayBuild]
  · rintro ⟨⟨major, minor, patch, preRelease, build⟩, h, rfl⟩
    have hcore := (versionCore_iff _).mpr
      ⟨major, minor, patch, ⟨h.major_le, h.minor_le, h.patch_le⟩, rfl⟩
    cases preRelease with
    | none =>
      cases build with
      | none => simpa [Version.display, displayPreRelease, displayBuild] using
          ValidSemver.core hcore
      | some b => simpa [Version.display, displayPreRelease, displayBuild] using
          ValidSemver.build hcore (h.build_valid b rfl)
    | some p =>
      have hpre := (preRelease_grammar_iff _).mpr ⟨p, h.preRelease_valid p rfl, rfl⟩
      cases build with
      | none => simpa [Version.display, displayPreRelease, displayBuild] using
          ValidSemver.preRelease hcore hpre
      | some b => simpa [Version.display, displayPreRelease, displayBuild] using
          ValidSemver.both hcore hpre (h.build_valid b rfl)

/-- `parse` accepts exactly the grammar, and `Display` is its inverse. -/
theorem parse_exact :
    (∀ s, (∃ v, parse s = .ok v) ↔ ValidSemver FitsU64 s) ∧
    (∀ s v, parse s = .ok v → v.display = s) ∧
    (∀ s t v, parse s = .ok v → parse t = .ok v → s = t) ∧
    (∀ s v, parse s = .ok v → parse v.display = .ok v) := by
  refine ⟨fun s => ?_, fun s v h => (parse_sound h).2, fun s t v hs ht => ?_,
    fun s v h => parse_display (parse_sound h).1⟩
  · rw [validSemver_iff]
    constructor
    · rintro ⟨v, h⟩
      exact ⟨v, parse_sound h⟩
    · rintro ⟨v, hvalid, rfl⟩
      exact ⟨v, parse_display hvalid⟩
  · rw [← (parse_sound hs).2, (parse_sound ht).2]

theorem parse_exact_alpha :
    let s : Text := ['1', '.', '0', '.', '2', '-', 'a', '-', '.', '1', '0', '+', '0', '0', '7']
    ValidSemver FitsU64 s ∧ Version.display ⟨1, 0, 2, some ⟨[.alpha ['a', '-'], .numeric 10]⟩,
      some ⟨['0', '0', '7']⟩⟩ = s := by
  intro s
  have hparse : parse s = .ok ⟨1, 0, 2, some ⟨[.alpha ['a', '-'], .numeric 10]⟩,
      some ⟨['0', '0', '7']⟩⟩ := by decide
  exact ⟨(parse_exact.1 s).mp ⟨_, hparse⟩, parse_exact.2.1 s _ hparse⟩

end Stdx.Semver
