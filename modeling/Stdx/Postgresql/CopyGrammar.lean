import Stdx.Postgresql.CopyOut

/-!
# The octets of a row

`Accepts` is what the two passes over a row take: the count fits an `i16`, every length an
`i32`, and no value ends behind the row limit.  The limit is not compared with a `NULL`.
-/

namespace Stdx.Postgresql

open Stdx.Foundation

/-! ## Integers -/

@[simp] theorem i32Octets_length (value : Int) : (i32Octets value).length = 4 :=
  fixedOctets_length 4 _

@[simp] theorem u16Octets_length (value : Nat) : (u16Octets value).length = 2 :=
  fixedOctets_length 2 _

theorem readI32_octets {buf rest : Bytes} {pos : Nat} {value : Int}
    (h : buf.drop pos = i32Octets value ++ rest) (hlow : -2 ^ 31 ≤ value)
    (hhigh : value < 2 ^ 31) : readI32 buf pos = value := by
  have htake : (buf.drop pos).take 4 = i32Octets value := by
    rw [h]
    exact List.take_left' (i32Octets_length value)
  unfold readI32
  simp only [htake, i32Octets, beValue_fixedOctets]
  split <;> omega

theorem octets_readI32 {buf : Bytes} {pos : Nat} (h : pos + 4 ≤ buf.length) :
    buf.drop pos = i32Octets (readI32 buf pos) ++ buf.drop (pos + 4) ∧
      readI32 buf pos < 2 ^ 31 := by
  have hlength : ((buf.drop pos).take 4).length = 4 := by
    rw [List.length_take, List.length_drop]
    omega
  have hlt := beValue_lt ((buf.drop pos).take 4)
  rw [hlength] at hlt
  constructor
  · have heq : i32Octets (readI32 buf pos) = (buf.drop pos).take 4 := by
      apply beValue_inj (by rw [hlength, i32Octets_length])
      unfold readI32
      simp only [i32Octets, beValue_fixedOctets]
      split <;> omega
    rw [heq, ← List.drop_drop, List.take_append_drop]
  · unfold readI32
    simp only
    split <;> omega

theorem readI16_octets {buf rest : Bytes} {value : Nat} (h : buf = u16Octets value ++ rest)
    (hvalue : value < 2 ^ 16) :
    readI16 buf = if value < 2 ^ 15 then (value : Int) else value - 2 ^ 16 := by
  have htake : buf.take 2 = u16Octets value := by
    rw [h]
    exact List.take_left' (u16Octets_length value)
  unfold readI16
  simp only [htake, u16Octets, beValue_fixedOctets]
  rw [Nat.mod_eq_of_lt (by omega : value < 256 ^ 2)]

theorem octets_readI16 {buf : Bytes} (h : 2 ≤ buf.length) :
    ∃ value, value < 2 ^ 16 ∧ buf = u16Octets value ++ buf.drop 2 := by
  have hlength : (buf.take 2).length = 2 := by
    rw [List.length_take]
    omega
  have hlt := beValue_lt (buf.take 2)
  rw [hlength] at hlt
  refine ⟨beValue (buf.take 2), hlt, ?_⟩
  have heq : u16Octets (beValue (buf.take 2)) = buf.take 2 := by
    apply beValue_inj (by rw [hlength, u16Octets_length])
    rw [u16Octets, beValue_fixedOctets]
    exact Nat.mod_eq_of_lt hlt
  rw [heq, List.take_append_drop]

/-! ## Rows -/

def fieldOctets : Option Bytes → Bytes
  | none => i32Octets (-1)
  | some value => i32Octets value.length ++ value

def fieldsOctets (fields : List (Option Bytes)) : Bytes :=
  fields.flatMap fieldOctets

def rowOctets (fields : List (Option Bytes)) : Bytes :=
  u16Octets fields.length ++ fieldsOctets fields

@[simp] theorem fieldsOctets_nil : fieldsOctets [] = [] := rfl

@[simp] theorem fieldsOctets_cons (field : Option Bytes) (fields : List (Option Bytes)) :
    fieldsOctets (field :: fields) = fieldOctets field ++ fieldsOctets fields := by
  simp [fieldsOctets]

@[simp] theorem rowOctets_length (fields : List (Option Bytes)) :
    (rowOctets fields).length = 2 + (fieldsOctets fields).length := by
  simp [rowOctets]

def Encoding.field (value : Encoding) : Option Bytes :=
  match value.result with
  | .ok .notNull => some value.octets
  | _ => none

theorem framed_field (tooLarge : String) (value : Encoding) (h : value.Fits) :
    ∃ isNull, framed tooLarge value = (fieldOctets value.field, .ok isNull) := by
  obtain ⟨octets, result⟩ := value
  obtain hnull | ⟨hvalue, hlength⟩ := h
  · simp only at hnull
    subst hnull
    exact ⟨_, rfl⟩
  · simp only at hvalue hlength
    subst hvalue
    exact ⟨_, if_pos hlength⟩

theorem encodeFields_octets (values : List Encoding) (h : (encodeFields values).2 = .ok ()) :
    (encodeFields values).1 = fieldsOctets (values.map Encoding.field) := by
  rw [encodeFields_fits] at h
  induction values with
  | nil => rfl
  | cons value values ih =>
    obtain ⟨isNull, hframed⟩ :=
      framed_field "COPY field is larger than 2 GiB" value (h value List.mem_cons_self)
    have hrest := ih fun other hmem => h other (List.mem_cons_of_mem _ hmem)
    simp [encodeFields, hframed, hrest]

theorem encodeCopyRow_octets (values : List Encoding) (h : (encodeCopyRow values).2 = .ok ()) :
    (encodeCopyRow values).1 = rowOctets (values.map Encoding.field) := by
  unfold encodeCopyRow at h ⊢
  split at h
  · next hlength =>
    rw [if_pos hlength]
    simp only at h ⊢
    rw [encodeFields_octets values h, rowOctets, List.length_map]
  · simp at h

section

variable {T : Target} (limit : RowLimit T)

/-- The fields of a row from `pos` on, as the first pass takes them. -/
def AcceptsFrom : Nat → List (Option Bytes) → Prop
  | _, [] => True
  | pos, none :: fields => AcceptsFrom (pos + 4) fields
  | pos, some value :: fields =>
    value.length < 2 ^ 31 ∧ pos + 4 + value.length ≤ limit.bytes ∧
      AcceptsFrom (pos + 4 + value.length) fields

def Accepts (fields : List (Option Bytes)) : Prop :=
  fields.length < 2 ^ 15 ∧ AcceptsFrom limit 2 fields

theorem acceptsFrom_of_length {fields : List (Option Bytes)} {pos : Nat}
    (hfit : ∀ value, some value ∈ fields → value.length < 2 ^ 31)
    (hlength : pos + (fieldsOctets fields).length ≤ limit.bytes) :
    AcceptsFrom limit pos fields := by
  induction fields generalizing pos with
  | nil => trivial
  | cons field fields ih =>
    have hrest := fun value hmem => hfit value (List.mem_cons_of_mem _ hmem)
    cases field with
    | none =>
      simp only [fieldsOctets_cons, fieldOctets, List.length_append, i32Octets_length]
        at hlength
      exact ih hrest (by omega)
    | some value =>
      simp only [fieldsOctets_cons, fieldOctets, List.length_append, i32Octets_length]
        at hlength
      exact ⟨hfit value List.mem_cons_self, by omega, ih hrest (by omega)⟩

theorem acceptsFrom_fit {fields : List (Option Bytes)} {pos : Nat}
    (h : AcceptsFrom limit pos fields) :
    ∀ value, some value ∈ fields → value.length < 2 ^ 31 := by
  induction fields generalizing pos with
  | nil => simp
  | cons field fields ih =>
    intro other hmem
    cases field with
    | none =>
      simp only [List.mem_cons, reduceCtorEq, false_or] at hmem
      exact ih h other hmem
    | some value =>
      obtain ⟨hvalue, _, hrest⟩ := h
      simp only [List.mem_cons, Option.some.injEq] at hmem
      rcases hmem with rfl | hmem
      · exact hvalue
      · exact ih hrest other hmem

theorem encodeCopyRow_accepts {values : List Encoding} (h : (encodeCopyRow values).2 = .ok ())
    (hcount : values.length ≤ 32767) (hlength : (encodeCopyRow values).1.length ≤ limit.bytes) :
    Accepts limit (values.map Encoding.field) := by
  rw [encodeCopyRow_octets values h, rowOctets_length] at hlength
  constructor
  · rw [List.length_map]
    omega
  · refine acceptsFrom_of_length limit ?_ hlength
    intro octets hmem
    obtain ⟨value, hvalue, hfield⟩ := List.mem_map.mp hmem
    unfold encodeCopyRow at h
    rw [if_pos (by omega)] at h
    obtain hnull | ⟨hresult, hshort⟩ := (encodeFields_fits values).mp h value hvalue
    · rw [Encoding.field, hnull] at hfield
      cases hfield
    · rw [Encoding.field, hresult] at hfield
      cases hfield
      exact hshort

/-! ## The two passes -/

theorem findEnd_row {fields : List (Option Bytes)} {buf rest : Bytes} {pos : Nat}
    (h : buf.drop pos = fieldsOctets fields ++ rest) (hpos : pos ≤ buf.length)
    (haccepts : AcceptsFrom limit pos fields) :
    findEnd limit buf fields.length pos = .ok (some (pos + (fieldsOctets fields).length)) := by
  induction fields generalizing pos with
  | nil => rfl
  | cons field fields ih =>
    have hlength := congrArg List.length h
    rw [List.length_drop, fieldsOctets_cons] at hlength
    rw [fieldsOctets_cons] at h
    cases field with
    | none =>
      simp only [fieldOctets, List.length_append, i32Octets_length] at hlength
      rw [fieldOctets, List.append_assoc] at h
      have hread := readI32_octets h (by omega) (by omega)
      have hnext : buf.drop (pos + 4) = fieldsOctets fields ++ rest := by
        rw [← List.drop_drop, h]
        exact List.drop_left' (i32Octets_length _)
      rw [List.length_cons, findEnd, if_neg (by omega), hread]
      simp only [if_true]
      rw [ih hnext (by omega) haccepts, fieldsOctets_cons, fieldOctets]
      simp only [List.length_append, i32Octets_length]
      rw [Nat.add_assoc]
    | some value =>
      obtain ⟨hvalue, hlimit, hrest⟩ := haccepts
      have hfits := limit.fits
      simp only [fieldOctets, List.length_append, i32Octets_length] at hlength
      rw [fieldOctets, List.append_assoc, List.append_assoc] at h
      have hread := readI32_octets h (by omega) (by omega)
      have hnext : buf.drop (pos + 4 + value.length) = fieldsOctets fields ++ rest := by
        rw [← List.drop_drop, ← List.drop_drop, h, List.drop_left' (i32Octets_length _)]
        exact List.drop_left
      rw [List.length_cons, findEnd, if_neg (by omega), hread]
      simp only [Int.toNat_natCast]
      rw [if_neg (by omega), if_neg (by omega), if_neg (by omega), if_neg (by omega),
        if_neg (by omega), ih hnext (by omega) hrest, fieldsOctets_cons, fieldOctets]
      simp only [List.length_append, i32Octets_length]
      rw [Nat.add_assoc, Nat.add_assoc, Nat.add_assoc]

theorem findEnd_some {count : Nat} {buf : Bytes} {pos stop : Nat} (hpos : pos ≤ buf.length)
    (h : findEnd limit buf count pos = .ok (some stop)) :
    ∃ fields rest, fields.length = count ∧ AcceptsFrom limit pos fields ∧
      buf.drop pos = fieldsOctets fields ++ rest ∧
      stop = pos + (fieldsOctets fields).length := by
  induction count generalizing pos with
  | zero =>
    simp only [findEnd, Outcome.ok.injEq, Option.some.injEq] at h
    exact ⟨[], buf.drop pos, rfl, trivial, by simp, by simp [h]⟩
  | succ count ih =>
    rw [findEnd] at h
    split at h
    · simp at h
    next hshort =>
    obtain ⟨hread, hhigh⟩ := @octets_readI32 buf pos (by omega)
    simp only at h
    split at h
    · next hnull =>
      obtain ⟨fields, rest, hcount, haccepts, hfields, hstop⟩ := ih (by omega) h
      refine ⟨none :: fields, rest, by simp [hcount], haccepts, ?_, ?_⟩
      · rw [hread, hnull, hfields]
        simp [fieldOctets]
      · simp only [hstop, fieldsOctets_cons, fieldOctets, List.length_append,
          i32Octets_length]
        omega
    split at h
    · simp at h
    split at h
    · simp at h
    split at h
    · simp at h
    split at h
    · simp at h
    next hnegative _ hlimit hlonger =>
    obtain ⟨fields, rest, hcount, haccepts, hfields, hstop⟩ := ih (by omega) h
    have hvalue : ((buf.drop (pos + 4)).take (readI32 buf pos).toNat).length =
        (readI32 buf pos).toNat := by
      rw [List.length_take, List.length_drop]
      omega
    refine ⟨some ((buf.drop (pos + 4)).take (readI32 buf pos).toNat) :: fields, rest,
      by simp [hcount], ⟨?_, ?_, ?_⟩, ?_, ?_⟩
    · rw [hvalue]
      omega
    · rw [hvalue]
      omega
    · rw [hvalue]
      exact haccepts
    · rw [fieldsOctets_cons, fieldOctets, hvalue, Int.toNat_of_nonneg (by omega),
        List.append_assoc, List.append_assoc, ← hfields,
        ← List.drop_drop (j := pos + 4), List.take_append_drop, ← hread]
    · simp only [hstop, fieldsOctets_cons, fieldOctets, List.length_append, i32Octets_length,
        hvalue]
      omega

theorem readI32_append {buf : Bytes} {pos : Nat} (h : pos + 4 ≤ buf.length) (more : Bytes) :
    readI32 (buf ++ more) pos = readI32 buf pos := by
  unfold readI32
  rw [List.drop_append_of_le_length (by omega),
    List.take_append_of_le_length (by rw [List.length_drop]; omega)]

theorem findEnd_append {count : Nat} {buf : Bytes} {pos : Nat}
    (h : findEnd limit buf count pos ≠ .ok none) (more : Bytes) :
    findEnd limit (buf ++ more) count pos = findEnd limit buf count pos := by
  induction count generalizing pos with
  | zero => rfl
  | succ count ih =>
    rw [findEnd] at h ⊢
    rw [findEnd]
    split at h
    · simp at h
    next hshort =>
    rw [if_neg (by rw [List.length_append]; omega), if_neg hshort,
      readI32_append (by omega) more]
    simp only at h ⊢
    split at h
    · next hnull =>
      rw [if_pos hnull, if_pos hnull]
      exact ih h
    next hnull =>
    rw [if_neg hnull, if_neg hnull]
    split at h
    · next hnegative => rw [if_pos hnegative, if_pos hnegative]
    next hnegative =>
    rw [if_neg hnegative, if_neg hnegative]
    split at h
    · next hwide => rw [if_pos hwide, if_pos hwide]
    next hwide =>
    rw [if_neg hwide, if_neg hwide]
    split at h
    · next hlimit => rw [if_pos hlimit, if_pos hlimit]
    next hlimit =>
    rw [if_neg hlimit, if_neg hlimit]
    split at h
    · simp at h
    next hlonger =>
    rw [if_neg (by rw [List.length_append]; omega), if_neg hlonger]
    exact ih h

theorem findEnd_ne_panic (buf : Bytes) (count pos : Nat) :
    findEnd limit buf count pos ≠ .panic := by
  induction count generalizing pos with
  | zero => simp [findEnd]
  | succ count ih =>
    rw [findEnd]
    simp only
    split
    · simp
    split
    · exact ih _
    split
    · simp
    split
    · simp
    split
    · simp
    split
    · simp
    · exact ih _

theorem sliceFields_row {fields : List (Option Bytes)} {row rest : Bytes} {p : Nat}
    (h : row.drop p = fieldsOctets fields ++ rest) (hp : p ≤ row.length)
    (hfit : ∀ value, some value ∈ fields → value.length < 2 ^ 31) :
    sliceFields row fields.length p = .ok fields := by
  induction fields generalizing p with
  | nil => rfl
  | cons field fields ih =>
    have hlength := congrArg List.length h
    rw [List.length_drop, fieldsOctets_cons] at hlength
    rw [fieldsOctets_cons] at h
    have hrest := fun value hmem => hfit value (List.mem_cons_of_mem _ hmem)
    cases field with
    | none =>
      simp only [fieldOctets, List.length_append, i32Octets_length] at hlength
      rw [fieldOctets, List.append_assoc] at h
      have hread := readI32_octets h (by omega) (by omega)
      have hnext : row.drop (p + 4) = fieldsOctets fields ++ rest := by
        rw [← List.drop_drop, h]
        exact List.drop_left' (i32Octets_length _)
      rw [List.length_cons, sliceFields, if_neg (by omega), hread]
      simp only [if_true]
      rw [ih hnext (by omega) hrest]
      rfl
    | some value =>
      have hvalue := hfit value List.mem_cons_self
      simp only [fieldOctets, List.length_append, i32Octets_length] at hlength
      rw [fieldOctets, List.append_assoc, List.append_assoc] at h
      have hread := readI32_octets h (by omega) (by omega)
      have htake : row.drop (p + 4) = value ++ (fieldsOctets fields ++ rest) := by
        rw [← List.drop_drop, h]
        exact List.drop_left' (i32Octets_length _)
      have hnext : row.drop (p + 4 + value.length) = fieldsOctets fields ++ rest := by
        rw [← List.drop_drop, htake]
        exact List.drop_left
      rw [List.length_cons, sliceFields, if_neg (by omega), hread]
      simp only [Int.toNat_natCast]
      rw [if_neg (by omega), if_neg (by omega), if_neg (by omega),
        ih hnext (by omega) hrest, htake, List.take_left]
      rfl

end

end Stdx.Postgresql
