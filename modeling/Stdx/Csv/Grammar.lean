import Stdx.Csv.Reader

/-!
# The grammar of the format

The meaning of a CSV text, read one octet at a time with no buffer: what the reader is
for.  A record is ended by `\r\n`, `\n` or `\r`, or by the end of the text; a blank line is
no record; in a quoted field a doubled quote is one quote.  Content after a closing quote
is an error after which reading resumes behind the next line break, and so is a quote that
is still open at the end.
-/

namespace Stdx.Csv

open Stdx.Foundation

inductive Phase where
  | start
  | unquoted (field : Bytes)
  | quoted (field : Bytes)
  | quoteSeen (field : Bytes)

structure Scanned where
  fields : List Bytes
  error : Option ReadErrorKind
  rest : Bytes
deriving DecidableEq

def afterBreak (byte : UInt8) (rest : Bytes) : Bytes :=
  if byte = 13 ∧ rest.head? = some 10 then rest.tail else rest

def skipLine : Bytes → Bytes
  | [] => []
  | byte :: rest => if isNewline byte then afterBreak byte rest else skipLine rest

def scanEnd : Phase → List Bytes → Option Scanned
  | .start, fields => if fields = [] then none else some ⟨fields ++ [[]], none, []⟩
  | .unquoted field, fields => some ⟨fields ++ [field], none, []⟩
  | .quoted _, fields => some ⟨fields, some .unterminatedQuote, []⟩
  | .quoteSeen field, fields => some ⟨fields ++ [field], none, []⟩

@[grind =]
def scan (delimiter : UInt8) : Phase → List Bytes → Bytes → Option Scanned
  | phase, fields, [] => scanEnd phase fields
  | .start, fields, byte :: rest =>
    if isNewline byte then
      -- the `\n` of a blank `\r\n` is skipped as a blank line of its own
      if fields = [] then scan delimiter .start [] rest
      else some ⟨fields ++ [[]], none, afterBreak byte rest⟩
    else if byte = delimiter then scan delimiter .start (fields ++ [[]]) rest
    else if byte = 34 then scan delimiter (.quoted []) fields rest
    else scan delimiter (.unquoted [byte]) fields rest
  | .unquoted field, fields, byte :: rest =>
    if byte = delimiter then scan delimiter .start (fields ++ [field]) rest
    else if isNewline byte then some ⟨fields ++ [field], none, afterBreak byte rest⟩
    else scan delimiter (.unquoted (field ++ [byte])) fields rest
  | .quoted field, fields, byte :: rest =>
    if byte = 34 then scan delimiter (.quoteSeen field) fields rest
    else scan delimiter (.quoted (field ++ [byte])) fields rest
  | .quoteSeen field, fields, byte :: rest =>
    if byte = 34 then scan delimiter (.quoted (field ++ [34])) fields rest
    else if byte = delimiter then scan delimiter .start (fields ++ [field]) rest
    else if isNewline byte then some ⟨fields ++ [field], none, afterBreak byte rest⟩
    else some ⟨fields ++ [field], some .trailingContent, skipLine rest⟩

/-! ## Records -/

structure Record where
  fields : List Bytes
  error : Option ReadErrorKind
deriving DecidableEq

def admitted (flexible : Bool) (numFields : Option Nat) (fields : List Bytes)
    (error : Option ReadErrorKind) : Record × Option Nat :=
  let error :=
    match error, numFields with
    | none, some expected =>
      if flexible = true ∨ fields.length = expected then none
      else some (.inconsistentFieldCount expected fields.length)
    | error, _ => error
  (⟨fields, error⟩,
    if numFields = none ∧ 0 < fields.length ∧ error = none then some fields.length
    else numFields)

theorem length_afterBreak_le (byte : UInt8) (rest : Bytes) :
    (afterBreak byte rest).length ≤ rest.length := by
  rw [afterBreak]
  split <;> simp

theorem length_skipLine_le (rest : Bytes) : (skipLine rest).length ≤ rest.length := by
  induction rest with
  | nil => simp [skipLine]
  | cons byte rest ih =>
    rw [skipLine]
    split
    · exact (length_afterBreak_le byte rest).trans (by simp)
    · exact ih.trans (by simp)

/-- Past the end there is nothing, and a record that is read consumes the text it is in. -/
theorem scan_rest_le (delimiter : UInt8) (phase : Phase) (fields : List Bytes)
    (input : Bytes) (s : Scanned) (h : scan delimiter phase fields input = some s) :
    s.rest.length ≤ input.length := by
  induction input generalizing phase fields with
  | nil =>
    cases phase <;> simp only [scan, scanEnd] at h
    case start => split at h <;> simp at h; simp [← h]
    all_goals simp at h; simp [← h]
  | cons byte rest ih =>
    have hbreak := length_afterBreak_le byte rest
    have hskip := length_skipLine_le rest
    have hcons : (byte :: rest).length = rest.length + 1 := rfl
    cases phase <;> simp only [scan] at h <;> split_ifs at h <;>
      first
      | exact (ih _ _ h).trans (by omega)
      | (obtain rfl := Option.some.inj h; simp only; omega)

theorem scan_start_rest_lt {delimiter : UInt8} {input : Bytes} {s : Scanned}
    (h : scan delimiter .start [] input = some s) : s.rest.length < input.length := by
  cases input with
  | nil => simp [scan, scanEnd] at h
  | cons byte rest =>
    simp only [scan, if_true] at h
    have hcons : (byte :: rest).length = rest.length + 1 := rfl
    split_ifs at h <;>
      exact (scan_rest_le _ _ _ _ _ h).trans_lt (by omega)

def records (delimiter : UInt8) (flexible : Bool) (numFields : Option Nat)
    (input : Bytes) : List Record :=
  match h : scan delimiter .start [] input with
  | none => []
  | some s =>
    let (record, numFields) := admitted flexible numFields s.fields s.error
    have : s.rest.length < input.length := scan_start_rest_lt h
    record :: records delimiter flexible numFields s.rest
termination_by input.length

theorem records_none {delimiter : UInt8} {flexible : Bool} {numFields : Option Nat}
    {input : Bytes} (h : scan delimiter .start [] input = none) :
    records delimiter flexible numFields input = [] := by
  rw [records]
  split
  · rfl
  · next heq => rw [h] at heq; cases heq

theorem records_some {delimiter : UInt8} {flexible : Bool} {numFields : Option Nat}
    {input : Bytes} {s : Scanned} (h : scan delimiter .start [] input = some s) :
    records delimiter flexible numFields input =
      (admitted flexible numFields s.fields s.error).1 ::
        records delimiter flexible (admitted flexible numFields s.fields s.error).2 s.rest := by
  rw [records]
  split
  · next heq => rw [h] at heq; cases heq
  · next t heq =>
    obtain rfl : s = t := Option.some.inj (h.symm.trans heq)
    rfl

def withoutBom (stripBom : Bool) (input : Bytes) : Bytes :=
  if stripBom ∧ BOM.isPrefixOf input then input.drop 3 else input

inductive HeaderSetting where
  | unset
  | set (headers : List String)
  | parse

def headerNames (record : Record) : Except ReadErrorKind (List String) :=
  match record.error with
  | some kind => .error kind
  | none => record.fields.mapM Reader.fieldText

def reading (delimiter : UInt8) (flexible stripBom : Bool) (headers : HeaderSetting)
    (input : Bytes) : Option (Except ReadErrorKind (List String)) × List Record :=
  let input := withoutBom stripBom input
  match headers with
  | .unset => (none, records delimiter flexible none input)
  | .set names =>
    (none, records delimiter flexible
      (if names = [] then none else some names.length) input)
  | .parse =>
    match scan delimiter .start [] input with
    | none => (some (.ok []), [])
    | some s =>
      let (record, numFields) := admitted flexible none s.fields s.error
      match headerNames record with
      | .error kind => (some (.error kind), records delimiter flexible numFields s.rest)
      | .ok names =>
        (some (.ok names), records delimiter flexible (some names.length) s.rest)

/-! ## Runs of octets -/

@[simp] theorem afterBreak_lf (rest : Bytes) : afterBreak 10 rest = rest := by
  simp [afterBreak]

@[simp] theorem afterBreak_nil (byte : UInt8) : afterBreak byte [] = [] := by
  simp [afterBreak]

theorem scan_start_afterBreak (delimiter byte : UInt8) (rest : Bytes) :
    scan delimiter .start [] (afterBreak byte rest) = scan delimiter .start [] rest := by
  rw [afterBreak]
  split
  · next h =>
    cases rest with
    | nil => simp at h
    | cons b rest =>
      obtain rfl : b = 10 := by simpa using h.2
      simp [scan, isNewline]
  · rfl

theorem scan_unquoted {delimiter : UInt8} {seg : Bytes} (field : Bytes)
    (fields : List Bytes) (rest : Bytes)
    (h : ∀ byte ∈ seg, (byte == delimiter || isNewline byte) = false) :
    scan delimiter (.unquoted field) fields (seg ++ rest) =
      scan delimiter (.unquoted (field ++ seg)) fields rest := by
  induction seg generalizing field with
  | nil => simp
  | cons byte seg ih =>
    have hbyte : byte ≠ delimiter ∧ isNewline byte = false := by
      simpa using h byte (by simp)
    rw [List.cons_append, scan, if_neg hbyte.1, hbyte.2, if_neg (by simp),
      ih _ fun b hb => h b (by simp [hb]), List.append_assoc, List.singleton_append]

theorem scan_quoted {delimiter : UInt8} {seg : Bytes} (field : Bytes)
    (fields : List Bytes) (rest : Bytes) (h : ∀ byte ∈ seg, (byte == 34) = false) :
    scan delimiter (.quoted field) fields (seg ++ rest) =
      scan delimiter (.quoted (field ++ seg)) fields rest := by
  induction seg generalizing field with
  | nil => simp
  | cons byte seg ih =>
    have hbyte : byte ≠ 34 := by simpa using h byte (by simp)
    rw [List.cons_append, scan, if_neg hbyte, ih _ fun b hb => h b (by simp [hb]),
      List.append_assoc, List.singleton_append]

theorem skipLine_append {seg : Bytes} (rest : Bytes)
    (h : ∀ byte ∈ seg, isNewline byte = false) : skipLine (seg ++ rest) = skipLine rest := by
  induction seg with
  | nil => rfl
  | cons byte seg ih =>
    rw [List.cons_append, skipLine, h byte (by simp), if_neg (by simp),
      ih fun b hb => h b (by simp [hb])]

end Stdx.Csv
