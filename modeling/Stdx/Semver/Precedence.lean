import Stdx.Semver.RoundTrip
import Stdx.Foundation.Lexicographic

/-!
# Precedence

The comparisons of `semver/semver.rs`, and the order of versions in section 11 of
Semantic Versioning 2.0.0, which is stated over the texts of the identifiers.
-/

namespace Stdx.Semver

open Stdx.Foundation

/-- The order of strings, by bytes: the order of the code points. -/
def strCmp (a b : Text) : Ordering := a.compareLex (fun c d => compare c.toNat d.toNat) b

def Identifier.cmp (a b : Identifier) : Ordering :=
  match a, b with
  | .numeric _, .alpha _ => .lt
  | .alpha _, .numeric _ => .gt
  | .numeric a, .numeric b => compare a b
  | .alpha a, .alpha b => strCmp a b

def PreRelease.cmp (a b : PreRelease) : Ordering :=
  match comparePairs Identifier.cmp (a.identifiers.zip b.identifiers) with
  | .eq => compare a.identifiers.length b.identifiers.length
  | nonEq => nonEq

namespace Version

/-- `==` of versions. -/
def eq (a b : Version) : Bool :=
  a.major == b.major && a.minor == b.minor && a.patch == b.patch && a.preRelease == b.preRelease

def cmp (a b : Version) : Ordering :=
  match compare a.major b.major with
  | .eq =>
    match compare a.minor b.minor with
    | .eq =>
      match compare a.patch b.patch with
      | .eq =>
        match a.preRelease, b.preRelease with
        | none, some _ => .gt
        | some _, none => .lt
        | none, none => .eq
        | some a, some b => a.cmp b
      | nonEq => nonEq
    | nonEq => nonEq
  | nonEq => nonEq

end Version

/-! ## Section 11 -/

/-- Identifiers of digits only are compared as numbers, the others lexically in ASCII
order, and the first kind is lower than the second. -/
inductive IdentifierPrecedes (a b : Text) : Prop
  | numeric : Digits a → Digits b → decimalValue a < decimalValue b → IdentifierPrecedes a b
  | lexical : ¬Digits a → ¬Digits b → Lexicographic (fun c d => c.toNat < d.toNat) a b →
      IdentifierPrecedes a b
  | mixed : Digits a → ¬Digits b → IdentifierPrecedes a b

def PreRelease.fields (preRelease : PreRelease) : List Text :=
  preRelease.identifiers.map Identifier.display

inductive Precedes (v w : Version) : Prop
  | major : v.major < w.major → Precedes v w
  | minor : v.major = w.major → v.minor < w.minor → Precedes v w
  | patch : v.major = w.major → v.minor = w.minor → v.patch < w.patch → Precedes v w
  | preRelease {p : PreRelease} : v.major = w.major → v.minor = w.minor → v.patch = w.patch →
      v.preRelease = some p → w.preRelease = none → Precedes v w
  | fields {p q : PreRelease} : v.major = w.major → v.minor = w.minor → v.patch = w.patch →
      v.preRelease = some p → w.preRelease = some q →
      Lexicographic IdentifierPrecedes p.fields q.fields → Precedes v w

/-! ## Identifiers -/

abbrev charCmp (c d : Char) : Ordering := compare c.toNat d.toNat

instance : Std.TransCmp charCmp where
  eq_swap := Std.OrientedOrd.eq_swap
  isLE_trans := Std.TransOrd.isLE_trans

instance : Std.LawfulEqCmp charCmp where
  compare_self := Std.ReflOrd.compare_self
  eq_of_compare h := Char.toNat_inj.mp (Std.LawfulEqOrd.eq_of_compare h)

theorem strCmp_eq_lt_iff (a b : Text) :
    strCmp a b = .lt ↔ Lexicographic (fun c d => c.toNat < d.toNat) a b := by
  have h := @compareLex_eq_lt_iff _ _ charCmp id (fun c d => c.toNat < d.toNat) a b
    (fun _ _ _ _ => Nat.compare_eq_lt) (fun _ _ _ _ => Std.LawfulEqCmp.compare_eq_iff_eq)
  rwa [List.map_id, List.map_id] at h

theorem identifier_eq_swap (a b : Identifier) : a.cmp b = (b.cmp a).swap := by
  cases a <;> cases b
  · exact Std.OrientedOrd.eq_swap
  · rfl
  · rfl
  · exact @Std.OrientedCmp.eq_swap _ (List.compareLex charCmp) _ _ _

instance : Std.TransCmp Identifier.cmp where
  eq_swap := identifier_eq_swap _ _
  isLE_trans {a b c} hab hbc := by
    cases a <;> cases b <;> cases c
    case numeric.numeric.numeric => exact Std.TransOrd.isLE_trans hab hbc
    case alpha.alpha.alpha =>
      exact @Std.TransCmp.isLE_trans _ (List.compareLex charCmp) _ _ _ _ hab hbc
    all_goals
      first
      | exact rfl
      | (cases hab; done)
      | cases hbc

instance : Std.LawfulEqCmp Identifier.cmp where
  compare_self {a} := by
    cases a
    · exact Std.ReflOrd.compare_self
    · exact @Std.ReflCmp.compare_self _ (List.compareLex charCmp) _ _
  eq_of_compare {a b} h := by
    cases a <;> cases b
    · exact congrArg Identifier.numeric (Std.LawfulEqOrd.eq_of_compare h)
    · cases h
    · cases h
    · exact congrArg Identifier.alpha
        (@Std.LawfulEqCmp.eq_of_compare _ (List.compareLex charCmp) _ _ _ h)

theorem digits_decimal (n : Nat) : Digits (decimal n) :=
  (digits_iff _).mpr ⟨decimal_ne_nil n, fun _ hc => isDigit_of_mem_decimal hc⟩

theorem not_digits_of_alphanumeric {s : Text} (h : AlphanumericIdentifier s) : ¬Digits s := by
  intro hdigits
  obtain ⟨-, c, hmem, hc⟩ := (alphanumericIdentifier_iff s).mp h
  have hdigit := ((digits_iff s).mp hdigits).2 c hmem
  rw [not_isDigit_of_isNonDigit hc] at hdigit
  cases hdigit

theorem identifier_cmp_lt_iff {a b : Identifier} (ha : a.Valid) (hb : b.Valid) :
    a.cmp b = .lt ↔ IdentifierPrecedes a.display b.display := by
  cases a with
  | numeric m =>
    have hm := digits_decimal m
    cases b with
    | numeric n =>
      have hn := digits_decimal n
      constructor
      · intro h
        apply IdentifierPrecedes.numeric hm hn
        rw [decimalValue_decimal, decimalValue_decimal]
        exact Nat.compare_eq_lt.mp h
      · intro h
        cases h with
        | numeric _ _ hlt =>
          rw [Identifier.display, Identifier.display, decimalValue_decimal,
            decimalValue_decimal] at hlt
          exact Nat.compare_eq_lt.mpr hlt
        | lexical hnot _ _ => exact absurd hm hnot
        | mixed _ hnot => exact absurd hn hnot
    | alpha t => exact ⟨fun _ => .mixed hm (not_digits_of_alphanumeric hb), fun _ => rfl⟩
  | alpha s =>
    have hs := not_digits_of_alphanumeric ha
    cases b with
    | numeric n =>
      constructor
      · intro h
        cases h
      · intro h
        cases h with
        | numeric hdigits _ _ => exact absurd hdigits hs
        | lexical _ hnot _ => exact absurd (digits_decimal n) hnot
        | mixed hdigits _ => exact absurd hdigits hs
    | alpha t =>
      have ht := not_digits_of_alphanumeric hb
      constructor
      · intro h
        exact .lexical hs ht ((strCmp_eq_lt_iff s t).mp h)
      · intro h
        cases h with
        | numeric hdigits _ _ => exact absurd hdigits hs
        | lexical _ _ hlex => exact (strCmp_eq_lt_iff s t).mpr hlex
        | mixed hdigits _ => exact absurd hdigits hs

theorem identifier_display_inj {a b : Identifier} (ha : a.Valid) (hb : b.Valid) :
    a.display = b.display ↔ a = b := by
  constructor
  · intro h
    have hleft := (identifier_parse_iff _ a).mpr ⟨ha, rfl⟩
    rw [(identifier_parse_iff _ b).mpr ⟨hb, h.symm⟩] at hleft
    exact (Except.ok.inj hleft).symm
  · rintro rfl
    rfl

/-! ## Pre-releases -/

theorem preRelease_cmp_eq (a b : PreRelease) :
    a.cmp b = a.identifiers.compareLex Identifier.cmp b.identifiers :=
  comparePairs_then_length _ _

theorem preRelease_cmp_lt_iff {a b : PreRelease} (ha : a.Valid) (hb : b.Valid) :
    a.cmp b = .lt ↔ Lexicographic IdentifierPrecedes a.fields b.fields := by
  rw [preRelease_cmp_eq]
  apply compareLex_eq_lt_iff
  · intro x hx y hy
    exact identifier_cmp_lt_iff (ha.2 x hx) (hb.2 y hy)
  · intro x hx y hy
    rw [identifier_display_inj (ha.2 x hx) (hb.2 y hy)]
    exact Std.LawfulEqCmp.compare_eq_iff_eq

instance : Std.TransCmp PreRelease.cmp where
  eq_swap {a b} := by
    rw [preRelease_cmp_eq, preRelease_cmp_eq]
    exact Std.OrientedCmp.eq_swap
  isLE_trans {a b c} hab hbc := by
    rw [preRelease_cmp_eq] at *
    exact Std.TransCmp.isLE_trans hab hbc

instance : Std.LawfulEqCmp PreRelease.cmp where
  compare_self {a} := by
    rw [preRelease_cmp_eq]
    exact Std.ReflCmp.compare_self
  eq_of_compare {a b} h := by
    rw [preRelease_cmp_eq] at h
    exact congrArg PreRelease.mk (Std.LawfulEqCmp.eq_of_compare h)

/-- The last level of the comparison: a version without a pre-release is the higher one. -/
def releaseCmp (a b : Option PreRelease) : Ordering :=
  match a, b with
  | none, some _ => .gt
  | some _, none => .lt
  | none, none => .eq
  | some a, some b => a.cmp b

instance : Std.TransCmp releaseCmp where
  eq_swap {a b} := by
    cases a <;> cases b
    case some.some => exact @Std.OrientedCmp.eq_swap _ PreRelease.cmp _ _ _
    all_goals rfl
  isLE_trans {a b c} hab hbc := by
    cases a <;> cases b <;> cases c
    case some.some.some => exact @Std.TransCmp.isLE_trans _ PreRelease.cmp _ _ _ _ hab hbc
    all_goals
      first
      | exact rfl
      | (cases hab; done)
      | cases hbc

instance : Std.LawfulEqCmp releaseCmp where
  compare_self {a} := by
    cases a
    · rfl
    · exact @Std.ReflCmp.compare_self _ PreRelease.cmp _ _
  eq_of_compare {a b} h := by
    cases a <;> cases b
    · rfl
    · cases h
    · cases h
    · exact congrArg some (@Std.LawfulEqCmp.eq_of_compare _ PreRelease.cmp _ _ _ h)

/-! ## Versions -/

namespace Version

theorem cmp_eq (v w : Version) :
    v.cmp w = (compare v.major w.major).then ((compare v.minor w.minor).then
      ((compare v.patch w.patch).then (releaseCmp v.preRelease w.preRelease))) := by
  unfold cmp releaseCmp
  cases compare v.major w.major <;> cases compare v.minor w.minor <;>
    cases compare v.patch w.patch <;> rfl

instance : Std.TransCmp fun v w : Version => releaseCmp v.preRelease w.preRelease where
  eq_swap := (inferInstance : Std.OrientedCmp releaseCmp).eq_swap
  isLE_trans := (inferInstance : Std.TransCmp releaseCmp).isLE_trans

abbrev levels : Version → Version → Ordering :=
  compareLex (compareOn major) (compareLex (compareOn minor) (compareLex (compareOn patch)
    fun v w => releaseCmp v.preRelease w.preRelease))

instance : Std.TransCmp cmp where
  eq_swap {v w} := by
    rw [cmp_eq, cmp_eq]
    exact @Std.OrientedCmp.eq_swap _ levels _ _ _
  isLE_trans {u v w} huv hvw := by
    rw [cmp_eq] at *
    exact @Std.TransCmp.isLE_trans _ levels _ _ _ _ huv hvw

theorem cmp_eq_eq_iff (v w : Version) : v.cmp w = .eq ↔ v.eq w = true := by
  rw [cmp_eq, Ordering.then_eq_eq, Ordering.then_eq_eq, Ordering.then_eq_eq,
    Nat.compare_eq_eq, Nat.compare_eq_eq, Nat.compare_eq_eq, Std.LawfulEqCmp.compare_eq_iff_eq]
  simp only [eq, Bool.and_eq_true, beq_iff_eq, and_assoc]

theorem releaseCmp_lt_iff {v w : Version} (hv : v.Valid) (hw : w.Valid) :
    releaseCmp v.preRelease w.preRelease = .lt ↔
      (∃ p, v.preRelease = some p ∧ w.preRelease = none) ∨
        ∃ p q, v.preRelease = some p ∧ w.preRelease = some q ∧
          Lexicographic IdentifierPrecedes p.fields q.fields := by
  have hvalid := hv.preRelease_valid
  have hvalid' := hw.preRelease_valid
  cases hp : v.preRelease with
  | none => cases w.preRelease <;> simp [releaseCmp]
  | some p =>
    cases hq : w.preRelease with
    | none => simp [releaseCmp]
    | some q =>
      have hcmp := preRelease_cmp_lt_iff (hvalid p hp) (hvalid' q hq)
      simpa [releaseCmp] using hcmp

theorem cmp_lt_iff {v w : Version} (hv : v.Valid) (hw : w.Valid) :
    v.cmp w = .lt ↔ Precedes v w := by
  rw [cmp_eq, Ordering.then_eq_lt, Ordering.then_eq_lt, Ordering.then_eq_lt,
    Nat.compare_eq_lt, Nat.compare_eq_lt, Nat.compare_eq_lt, Nat.compare_eq_eq,
    Nat.compare_eq_eq, Nat.compare_eq_eq, releaseCmp_lt_iff hv hw]
  constructor
  · rintro (hmajor | ⟨hmajor, hminor | ⟨hminor, hpatch | ⟨hpatch, hrelease⟩⟩⟩)
    · exact .major hmajor
    · exact .minor hmajor hminor
    · exact .patch hmajor hminor hpatch
    · rcases hrelease with ⟨p, hp, hw⟩ | ⟨p, q, hp, hq, hfields⟩
      · exact .preRelease hmajor hminor hpatch hp hw
      · exact .fields hmajor hminor hpatch hp hq hfields
  · intro h
    cases h with
    | major hmajor => exact Or.inl hmajor
    | minor hmajor hminor => exact Or.inr ⟨hmajor, Or.inl hminor⟩
    | patch hmajor hminor hpatch => exact Or.inr ⟨hmajor, Or.inr ⟨hminor, Or.inl hpatch⟩⟩
    | preRelease hmajor hminor hpatch hp hw =>
      exact Or.inr ⟨hmajor, Or.inr ⟨hminor, Or.inr ⟨hpatch, Or.inl ⟨_, hp, hw⟩⟩⟩⟩
    | fields hmajor hminor hpatch hp hq hfields =>
      exact Or.inr ⟨hmajor, Or.inr ⟨hminor, Or.inr ⟨hpatch, Or.inr ⟨_, _, hp, hq, hfields⟩⟩⟩⟩

end Version

def ParsedVersion : Type := { v : Version // ∃ s, parse s = .ok v }

theorem ParsedVersion.valid (v : ParsedVersion) : v.1.Valid := by
  obtain ⟨s, hparse⟩ := v.2
  exact (parse_sound hparse).1

/-- Versions are totally ordered by their precedence, up to the build metadata. -/
theorem version_precedence :
    (∀ v : Version, v.cmp v = .eq) ∧
    (∀ v w : Version, (v.cmp w).isLE ∨ (w.cmp v).isLE) ∧
    (∀ v w : Version, v.cmp w = (w.cmp v).swap) ∧
    (∀ v w : Version, (v.cmp w).isLE → (w.cmp v).isLE → v.eq w = true) ∧
    (∀ u v w : Version, (u.cmp v).isLE → (v.cmp w).isLE → (u.cmp w).isLE) ∧
    (∀ v w : ParsedVersion, v.1.cmp w.1 = .lt ↔ Precedes v.1 w.1) ∧
    (∀ v w : Version, v.cmp w = .eq ↔ v.eq w = true) ∧
    (∀ v w : Version, ∀ b c, { v with build := b }.cmp { w with build := c } = v.cmp w ∧
      { v with build := b }.eq { w with build := c } = v.eq w) := by
  refine ⟨?_, ?_, ?_, ?_, ?_, ?_, Version.cmp_eq_eq_iff, fun _ _ _ _ => ⟨rfl, rfl⟩⟩
  · intro v
    exact Std.ReflCmp.compare_self
  · intro v w
    rw [@Std.OrientedCmp.eq_swap _ Version.cmp _ w _]
    cases v.cmp w <;> simp
  · intro v w
    exact Std.OrientedCmp.eq_swap
  · intro v w hvw hwv
    rw [@Std.OrientedCmp.eq_swap _ Version.cmp _ _ _] at hwv
    rw [← Version.cmp_eq_eq_iff]
    cases hcmp : v.cmp w <;> simp_all
  · intro u v w huv hvw
    exact Std.TransCmp.isLE_trans huv hvw
  · intro v w
    exact Version.cmp_lt_iff v.valid w.valid

end Stdx.Semver
