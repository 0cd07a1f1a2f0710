import Stdx.Csv.Chunking
import Stdx.Csv.Writer

/-!
# What the writer writes reads back

The text of a field, of a row and of a list of rows, and what the grammar makes of it.
-/

namespace Stdx.Csv

open Stdx.Foundation

/-! ## Texts -/

def escaped (field : Bytes) : Bytes :=
  field.flatMap fun byte => if byte = 34 then [34, 34] else [byte]

def fieldOctets (delimiter : UInt8) (field : Bytes) : Bytes :=
  if needsQuoting delimiter field then 34 :: (escaped field ++ [34]) else field

@[grind =]
def rowOctets (delimiter : UInt8) : List Bytes → Bytes
  | [] => []
  | [field] => fieldOctets delimiter field
  | field :: row => fieldOctets delimiter field ++ delimiter :: rowOctets delimiter row

def rowsOctets (delimiter : UInt8) (rows : List (List Bytes)) : Bytes :=
  rows.flatMap fun row => rowOctets delimiter row ++ [13, 10]

theorem escaped_of_no_quote {seg : Bytes} (h : ∀ byte ∈ seg, (byte == 34) = false) :
    escaped seg = seg := by
  induction seg with
  | nil => rfl
  | cons byte seg ih =>
    have hbyte : byte ≠ 34 := by simpa using h byte (by simp)
    have hseg := ih fun b hb => h b (by simp [hb])
    simp only [escaped, List.flatMap_cons, if_neg hbyte] at hseg ⊢
    rw [hseg]
    rfl

theorem escapeQuotes_eq (field : Bytes) (fuel pos : Nat) (buf : Bytes)
    (hfuel : (field.drop pos).length < fuel) :
    escapeQuotes field fuel pos buf = buf ++ escaped (field.drop pos) := by
  induction fuel generalizing pos buf with
  | zero => omega
  | succ fuel ih =>
    rw [escapeQuotes]
    simp only
    split
    · next hfound =>
      obtain ⟨seg, hit, tail, hsplit, hoffset, hseg, hhit⟩ := findIdx_split hfound
      obtain rfl : hit = 34 := by simpa using hhit
      have hslice : slice field pos (pos + seg.length) = seg := by
        rw [slice_extend le_rfl hsplit, slice_self, List.nil_append]
      have hdrop : field.drop (pos + seg.length + 1) = tail := by
        rw [← List.drop_drop, ← List.drop_drop, hsplit, List.drop_left]
        rfl
      rw [hoffset, hslice, ih _ _ (by
        rw [hdrop]
        rw [hsplit, List.length_append, List.length_cons] at hfuel
        omega), hdrop, hsplit]
      have hescaped : escaped (seg ++ 34 :: tail) = seg ++ 34 :: 34 :: escaped tail := by
        have hplain := escaped_of_no_quote hseg
        simp only [escaped, List.flatMap_append, List.flatMap_cons, if_true] at hplain ⊢
        rw [hplain]
        rfl
      rw [hescaped]
      simp
    · next hmiss => rw [escaped_of_no_quote (findIdx_miss hmiss)]

theorem writeCsvField_eq (buf : Bytes) (delimiter : UInt8) (field : Bytes) :
    writeCsvField buf delimiter field = buf ++ fieldOctets delimiter field := by
  rw [writeCsvField, fieldOctets]
  split
  · rw [escapeQuotes_eq _ _ _ _ (by simp)]
    simp
  · rfl

theorem writeFields_rest (delimiter : UInt8) (buf : Bytes) (field : Bytes)
    (row : List Bytes) :
    Writer.writeFields delimiter false buf (field :: row) =
      buf ++ delimiter :: rowOctets delimiter (field :: row) := by
  induction row generalizing buf field with
  | nil => simp [Writer.writeFields, writeCsvField_eq, rowOctets]
  | cons next row ih =>
    rw [Writer.writeFields, ih, writeCsvField_eq]
    simp [rowOctets]

theorem writeFields_eq (delimiter : UInt8) (buf : Bytes) (row : List Bytes) :
    Writer.writeFields delimiter true buf row = buf ++ rowOctets delimiter row := by
  cases row with
  | nil => simp [Writer.writeFields, rowOctets]
  | cons field row =>
    cases row with
    | nil => simp [Writer.writeFields, writeCsvField_eq, rowOctets]
    | cons next row =>
      rw [Writer.writeFields, writeFields_rest, writeCsvField_eq]
      simp [rowOctets]

/-! ## Reading the texts -/

section Grammar

variable (delimiter : Delimiter)

theorem scan_escaped (content field : Bytes) (fields : List Bytes) (rest : Bytes) :
    scan delimiter.byte (.quoted content) fields (escaped field ++ 34 :: rest) =
      scan delimiter.byte (.quoteSeen (content ++ field)) fields rest := by
  induction field generalizing content with
  | nil => simp [escaped, scan]
  | cons byte field ih =>
    have hcons : escaped (byte :: field) =
        (if byte = 34 then [34, 34] else [byte]) ++ escaped field := rfl
    rw [hcons]
    by_cases hquote : byte = 34
    · rw [if_pos hquote, List.append_assoc, List.cons_append, scan, if_pos rfl,
        List.singleton_append, scan, if_pos rfl, ih, hquote, List.append_assoc,
        List.singleton_append]
    · rw [if_neg hquote, List.append_assoc, List.singleton_append, scan, if_neg hquote, ih,
        List.append_assoc, List.singleton_append]

/-- The phase a field leaves the grammar in, in front of what ends the field. -/
inductive Ended (field : Bytes) : Phase → Prop
  | empty (h : field = []) : Ended field .start
  | unquoted : Ended field (.unquoted field)
  | quoteSeen : Ended field (.quoteSeen field)

theorem scan_field (field : Bytes) (fields : List Bytes) (rest : Bytes) :
    ∃ phase, Ended field phase ∧
      scan delimiter.byte .start fields (fieldOctets delimiter.byte field ++ rest) =
        scan delimiter.byte phase fields rest := by
  rw [fieldOctets]
  split
  · refine ⟨.quoteSeen field, .quoteSeen, ?_⟩
    have hquote : (34 : UInt8) ≠ delimiter.byte := fun h => delimiter.allowed.1 h.symm
    rw [List.cons_append, scan, if_neg (by simp [isNewline]), if_neg hquote, if_pos rfl,
      List.append_assoc, List.singleton_append, scan_escaped, List.nil_append]
  · next hplain =>
    cases field with
    | nil => exact ⟨.start, .empty rfl, rfl⟩
    | cons byte field =>
      obtain ⟨⟨hfirst, hfield⟩, hquote, -⟩ :
          ((byte ≠ delimiter.byte ∧ isNewline byte = false) ∧
            ∀ b ∈ field, b ≠ delimiter.byte ∧ isNewline b = false) ∧
          byte ≠ 34 ∧ 34 ∉ field := by
        simpa [needsQuoting] using hplain
      refine ⟨.unquoted (byte :: field), .unquoted, ?_⟩
      rw [List.cons_append, scan, if_neg (by simp [hfirst.2]), if_neg hfirst.1,
        if_neg hquote, scan_unquoted _ _ _ fun b hb => by simpa using hfield b hb,
        List.singleton_append]

theorem scan_field_delimiter (field : Bytes) (fields : List Bytes) (rest : Bytes) :
    scan delimiter.byte .start fields
        (fieldOctets delimiter.byte field ++ delimiter.byte :: rest) =
      scan delimiter.byte .start (fields ++ [field]) rest := by
  obtain ⟨phase, hended, hscan⟩ := scan_field delimiter field fields (delimiter.byte :: rest)
  obtain ⟨hquote, hcr, hlf⟩ := delimiter.allowed
  rw [hscan]
  cases hended with
  | empty h => rw [scan, if_neg (by simp [isNewline, hcr, hlf]), if_pos rfl, h]
  | unquoted => rw [scan, if_pos rfl]
  | quoteSeen => rw [scan, if_neg hquote, if_pos rfl]

theorem scan_field_newline (field : Bytes) (fields : List Bytes) (rest : Bytes)
    (h : fields ≠ [] ∨ field ≠ []) :
    scan delimiter.byte .start fields (fieldOctets delimiter.byte field ++ 13 :: 10 :: rest) =
      some ⟨fields ++ [field], none, rest⟩ := by
  obtain ⟨phase, hended, hscan⟩ := scan_field delimiter field fields (13 :: 10 :: rest)
  have hcr : (13 : UInt8) ≠ delimiter.byte := fun h => delimiter.allowed.2.1 h.symm
  have hnewline : isNewline 13 = true := rfl
  have hafter : afterBreak 13 (10 :: rest) = rest := rfl
  rw [hscan]
  cases hended with
  | empty hnone =>
    rw [scan, if_pos hnewline, if_neg (h.resolve_right fun hne => hne hnone), hafter, hnone]
  | unquoted => rw [scan, if_neg hcr, if_pos hnewline, hafter]
  | quoteSeen => rw [scan, if_neg (by decide), if_neg hcr, if_pos hnewline, hafter]

theorem scan_row (row fields : List Bytes) (rest : Bytes) (hrow : row ≠ [])
    (h : fields ≠ [] ∨ row ≠ [[]]) :
    scan delimiter.byte .start fields (rowOctets delimiter.byte row ++ 13 :: 10 :: rest) =
      some ⟨fields ++ row, none, rest⟩ := by
  induction row generalizing fields with
  | nil => exact absurd rfl hrow
  | cons field row ih =>
    cases row with
    | nil => exact scan_field_newline delimiter field fields rest (by simpa using h)
    | cons next row =>
      rw [rowOctets, List.append_assoc, List.cons_append, scan_field_delimiter,
        ih (fields ++ [field]) (by simp) (.inl (by simp)), List.append_assoc,
        List.singleton_append]
      simp

/-- The rows that can be read back: not the one that is written as a blank line. -/
def Readable (row : List Bytes) : Prop := row ≠ [] ∧ row ≠ [[]]

theorem records_rows (flexible : Bool) (numFields : Option Nat) (rows : List (List Bytes))
    (hrows : ∀ row ∈ rows, Readable row)
    (hcount : flexible = true ∨ ∃ n, (numFields = none ∨ numFields = some n) ∧
      ∀ row ∈ rows, row.length = n) :
    records delimiter.byte flexible numFields (rowsOctets delimiter.byte rows) =
      rows.map fun row => ⟨row, none⟩ := by
  induction rows generalizing numFields with
  | nil => exact records_none rfl
  | cons row rows ih =>
    obtain ⟨hne, hblank⟩ := hrows row (by simp)
    have htext : rowsOctets delimiter.byte (row :: rows) =
        rowOctets delimiter.byte row ++ 13 :: 10 :: rowsOctets delimiter.byte rows := by
      simp [rowsOctets]
    have hscan := scan_row delimiter row [] (rowsOctets delimiter.byte rows) hne (.inr hblank)
    rw [← htext, List.nil_append] at hscan
    rw [records_some hscan, List.map_cons]
    rcases hcount with rfl | ⟨n, hnum, hall⟩
    · have hadmitted : (admitted true numFields row none).1 = ⟨row, none⟩ := by
        cases numFields <;> simp [admitted]
      rw [hadmitted, ih _ (fun row hmem => hrows row (by simp [hmem])) (.inl rfl)]
    · have hlen := hall row (by simp)
      have hadmitted : (admitted flexible numFields row none).1 = ⟨row, none⟩ ∧
          ((admitted flexible numFields row none).2 = none ∨
            (admitted flexible numFields row none).2 = some n) := by
        rcases hnum with rfl | rfl
        · simp [admitted, hlen]
          omega
        · simp [admitted, hlen]
      rw [hadmitted.1, ih _ (fun row hmem => hrows row (by simp [hmem]))
        (.inr ⟨n, hadmitted.2, fun row hmem => hall row (by simp [hmem])⟩)]

end Grammar

/-! ## Writing the texts -/

namespace Writer

def output (w : Writer) : Bytes := w.sink ++ w.buf

/-- What decides the calls to come, scratch values and buffers apart. -/
structure Agrees (w w' : Writer) : Prop where
  delimiter : w'.delimiter = w.delimiter
  flexible : w'.flexible = w.flexible
  writeBom : w'.writeBom = w.writeBom
  numFields : w'.numFields = w.numFields
  rowCount : w'.rowCount = w.rowCount
  headers : w'.headers = w.headers
  headersWritten : w'.headersWritten = w.headersWritten

/-- A call that wrote nothing, the byte-order mark apart. -/
structure Rejects (w w' : Writer) : Prop extends Agrees w w' where
  output : (w'.output = w.output ∧ w'.bomWritten = w.bomWritten) ∨
    (w'.output = w.writePendingBom.output ∧ w'.bomWritten = w.writePendingBom.bomWritten)

/-- A call that wrote one record. -/
structure Writes (w : Writer) (record : List Bytes) (w' : Writer) : Prop where
  delimiter : w'.delimiter = w.delimiter
  flexible : w'.flexible = w.flexible
  writeBom : w'.writeBom = w.writeBom
  output : w'.output =
    w.writePendingBom.output ++ (rowOctets w.delimiter.byte record ++ [13, 10])
  bomWritten : w'.bomWritten = w.writePendingBom.bomWritten
  numFields : w.flexible = false → w'.numFields = some record.length ∧
    ∀ count, w.numFields = some count → record.length = count

@[simp] theorem output_flushIfFull (w : Writer) : w.flushIfFull.output = w.output := by
  rw [flushIfFull]
  split
  · simp [output, flush]
  · rfl

theorem agrees_flushIfFull (w : Writer) :
    Agrees w w.flushIfFull ∧ w.flushIfFull.bomWritten = w.bomWritten := by
  rw [flushIfFull]
  split <;> exact ⟨⟨rfl, rfl, rfl, rfl, rfl, rfl, rfl⟩, rfl⟩

theorem agrees_writePendingBom (w : Writer) : Agrees w w.writePendingBom := by
  rw [writePendingBom]
  split <;> exact ⟨rfl, rfl, rfl, rfl, rfl, rfl, rfl⟩

theorem rejects_self (w : Writer) : Rejects w w :=
  ⟨⟨rfl, rfl, rfl, rfl, rfl, rfl, rfl⟩, .inl ⟨rfl, rfl⟩⟩

theorem rejects_writePendingBom (w : Writer) : Rejects w w.writePendingBom :=
  ⟨agrees_writePendingBom w, .inr ⟨rfl, rfl⟩⟩

theorem writes_appended {w w' : Writer} {record : List Bytes}
    (hagrees : w'.delimiter = w.delimiter ∧ w'.flexible = w.flexible ∧ w'.writeBom = w.writeBom)
    (hsink : w'.sink = w.writePendingBom.sink)
    (hbuf : w'.buf = writeFields w.delimiter.byte true w.writePendingBom.buf record ++ [13, 10])
    (hbom : w'.bomWritten = w.writePendingBom.bomWritten)
    (hcount : w.flexible = false → w'.numFields = some record.length ∧
      ∀ count, w.numFields = some count → record.length = count) :
    Writes w record w'.flushIfFull := by
  obtain ⟨hframe, hbomFlush⟩ := agrees_flushIfFull w'
  refine ⟨hframe.delimiter.trans hagrees.1, hframe.flexible.trans hagrees.2.1,
    hframe.writeBom.trans hagrees.2.2, ?_, hbomFlush.trans hbom, fun hstrict => ?_⟩
  · rw [output_flushIfFull, output, output, hsink, hbuf, writeFields_eq]
    simp only [List.append_assoc]
  · rw [hframe.numFields]
    exact hcount hstrict

def CallSpec (w : Writer) (record : Option (List Bytes)) (out : Except WriteError Unit × Writer) :
    Prop :=
  match out.1, record with
  | .error _, _ => Rejects w out.2
  | .ok _, some record => Writes w record out.2
  | .ok _, none => out.2 = w.flush

theorem writeRow_spec (w : Writer) (row : List Bytes) :
    CallSpec w (some row) (w.writeRow row) := by
  have hpending := agrees_writePendingBom w
  have hframe := (⟨hpending.delimiter, hpending.flexible, hpending.writeBom⟩ :
    w.writePendingBom.delimiter = w.delimiter ∧ w.writePendingBom.flexible = w.flexible ∧
      w.writePendingBom.writeBom = w.writeBom)
  rw [writeRow]
  by_cases hflexible : w.flexible = true
  · rw [if_pos (hpending.flexible.trans hflexible)]
    refine writes_appended hframe rfl ?_ rfl fun hstrict => ?_
    · rw [← hpending.delimiter]
    · rw [hflexible] at hstrict
      cases hstrict
  · rw [if_neg (by rwa [hpending.flexible])]
    cases hnum : w.numFields with
    | none =>
      simp only [hpending.numFields, hnum]
      refine writes_appended hframe rfl ?_ rfl fun _ => ⟨rfl, by simp [hnum]⟩
      rw [← hpending.delimiter]
    | some expected =>
      simp only [hpending.numFields, hnum]
      by_cases hcount : row.length = expected
      · rw [if_neg (by simpa using hcount)]
        refine writes_appended hframe rfl ?_ rfl fun _ => ?_
        · rw [← hpending.delimiter]
        · refine ⟨congrArg some hcount.symm, fun count h => ?_⟩
          rw [hnum] at h
          exact hcount.trans (Option.some.inj h)
      · rw [if_pos (by simpa using hcount)]
        exact rejects_writePendingBom w

def pendingBom (w : Writer) : Bytes :=
  if w.writeBom ∧ w.bomWritten = false then BOM else []

theorem output_writePendingBom (w : Writer) :
    w.writePendingBom.output = w.output ++ w.pendingBom := by
  rw [writePendingBom, pendingBom]
  split <;> simp [output]

theorem Writes.pendingBom {w w' : Writer} {record : List Bytes} (h : Writes w record w') :
    w'.pendingBom = [] := by
  rw [Writer.pendingBom, h.writeBom, h.bomWritten, writePendingBom]
  split <;> simp_all

theorem writeRow_ok (w : Writer) (row : List Bytes)
    (h : w.flexible = true ∨ w.numFields = none ∨ w.numFields = some row.length) :
    ∃ w', w.writeRow row = (.ok (), w') ∧ Writes w row w' := by
  have hpending := agrees_writePendingBom w
  have hok : ∃ w', w.writeRow row = (.ok (), w') := by
    rw [writeRow, hpending.flexible, hpending.numFields]
    rcases h with hflexible | hnone | hsome
    · exact ⟨_, if_pos hflexible⟩
    · rw [hnone]
      split <;> exact ⟨_, rfl⟩
    · rw [hsome]
      simp only [ne_eq, not_true_eq_false, if_false]
      split <;> exact ⟨_, rfl⟩
  obtain ⟨w', hrun⟩ := hok
  have hspec := writeRow_spec w row
  rw [hrun] at hspec
  exact ⟨w', hrun, hspec⟩

end Writer

theorem writeAll_eq (rows : List (List Bytes)) (w : Writer)
    (h : w.flexible = true ∨ ∃ n, (w.numFields = none ∨ w.numFields = some n) ∧
      ∀ row ∈ rows, row.length = n) :
    writeAll w rows = .ok (w.output ++ (if rows = [] then [] else w.pendingBom) ++
      rowsOctets w.delimiter.byte rows) := by
  induction rows generalizing w with
  | nil => simp [writeAll, Writer.intoInner, Writer.flush, Writer.output, rowsOctets]
  | cons row rows ih =>
    obtain ⟨w', hwrite, hwrote⟩ := w.writeRow_ok row (h.imp_right fun ⟨n, hnum, hall⟩ => by
      rw [hall row (by simp)]
      exact hnum)
    have hrest : w'.flexible = true ∨ ∃ n, (w'.numFields = none ∨ w'.numFields = some n) ∧
        ∀ row ∈ rows, row.length = n := by
      rw [hwrote.flexible]
      by_cases hflexible : w.flexible = true
      · exact .inl hflexible
      · obtain ⟨n, -, hall⟩ := h.resolve_left hflexible
        obtain ⟨hnum, -⟩ := hwrote.numFields (Bool.eq_false_of_not_eq_true hflexible)
        refine .inr ⟨n, .inr ?_, fun row hmem => hall row (by simp [hmem])⟩
        rw [hnum, hall row (by simp)]
    rw [writeAll, hwrite]
    simp only
    rw [ih w' hrest, hwrote.output, hwrote.delimiter, hwrote.pendingBom,
      Writer.output_writePendingBom]
    simp [rowsOctets]

/-! ## Round trip -/

/-- Rows that are not blank lines come back as they were written, by a writer and a reader
of one delimiter that agree on the byte-order mark, in whatever chunks the reader gets the
output.  The rows have one number of fields unless writer and reader are both flexible. -/
theorem read_of_written (delimiter : Delimiter) (writerFlexible readerFlexible bom : Bool)
    (rows : List (List Bytes)) (hrows : ∀ row ∈ rows, row ≠ [] ∧ row ≠ [[]])
    (hcount : (writerFlexible = true ∧ readerFlexible = true) ∨
      ∀ row ∈ rows, ∀ row' ∈ rows, row.length = row'.length) :
    ∃ out, writeAll (.new delimiter writerFlexible bom) rows = .ok out ∧
      ∀ (chunks : List { chunk : Bytes // chunk ≠ [] }) (extra : Nat), inputOf chunks = out →
        readAll (out.length + 1 + extra) (unlimited delimiter readerFlexible bom) .unset
          (chunked chunks) = (none, rows.map fun row => ⟨row, none⟩) := by
  have hcommon (flexible : Bool) (hflex : writerFlexible = true ∧ readerFlexible = true →
      flexible = true) : flexible = true ∨ ∃ n, ((none : Option Nat) = none ∨ none = some n) ∧
        ∀ row ∈ rows, row.length = n := by
    refine hcount.imp hflex fun hsame => ?_
    cases rows with
    | nil => exact ⟨0, .inl rfl, by simp⟩
    | cons first rows =>
      exact ⟨first.length, .inl rfl, fun row hmem => hsame row hmem first (by simp)⟩
  have hwrite := writeAll_eq rows (.new delimiter writerFlexible bom) (hcommon _ And.left)
  refine ⟨_, hwrite, fun chunks extra hinput => ?_⟩
  have hread := readAll_chunked delimiter readerFlexible bom .unset chunks extra
  rw [← hinput, hread, reading]
  have htext : withoutBom bom (inputOf chunks) = rowsOctets delimiter.byte rows := by
    rw [hinput]
    cases rows with
    | nil => cases bom <;> rfl
    | cons row rows =>
      cases bom with
      | false => simp [withoutBom, Writer.output, Writer.new, Writer.pendingBom]
      | true => simp [withoutBom, Writer.output, Writer.new, Writer.pendingBom, BOM]
  rw [htext, records_rows delimiter readerFlexible none rows hrows (hcommon _ And.right)]

/-- A quote in the middle of a field, an empty field and a line break, with the mark. -/
theorem read_of_written_two_rows :
    let comma : Delimiter := ⟨44, by decide⟩
    let rows : List (List Bytes) := [[[97, 34], []], [[13, 10], [44]]]
    let out : Bytes := [0xEF, 0xBB, 0xBF, 34, 97, 34, 34, 34, 44, 13, 10,
      34, 13, 10, 34, 44, 34, 44, 34, 13, 10]
    writeAll (.new comma false true) rows = .ok out ∧
      readAll 22 (unlimited comma false true) .unset (chunked [⟨out, by decide⟩]) =
        (none, rows.map fun row => ⟨row, none⟩) := by
  intro comma rows out
  obtain ⟨out', hwrite, hread⟩ := read_of_written comma false false true rows (by decide)
    (.inr (by decide))
  have hout : writeAll (.new comma false true) rows = .ok out := by decide
  obtain rfl : out' = out := Except.ok.inj (hwrite.symm.trans hout)
  exact ⟨hout, hread [⟨_, by decide⟩] 0 (by simp [inputOf])⟩

/-! ## The default settings

A writer writes no mark unless it is asked to, and a reader strips one unless it is asked
not to. -/

def comma : Delimiter := ⟨44, by decide⟩

/-- The first field begins with the three octets of the mark, and no quote is written in
front of them. -/
def opensWithBom : List (List Bytes) → Bool
  | (field :: _) :: _ => BOM.isPrefixOf field && !needsQuoting comma.byte field
  | _ => false

theorem rowsOctets_field (row : List Bytes) (rows : List (List Bytes)) :
    ∃ (byte : UInt8) (rest : Bytes), (byte = 44 ∨ byte = 13) ∧
      ∀ field, rowsOctets comma.byte ((field :: row) :: rows) =
        fieldOctets comma.byte field ++ byte :: rest := by
  cases row with
  | nil =>
    refine ⟨13, 10 :: rowsOctets comma.byte rows, .inr rfl, fun field => ?_⟩
    simp [rowsOctets, rowOctets]
  | cons next row =>
    refine ⟨44, rowOctets comma.byte (next :: row) ++ 13 :: 10 :: rowsOctets comma.byte rows,
      .inl rfl, fun field => ?_⟩
    simp [rowsOctets, rowOctets, comma]

theorem isPrefixOf_append_other (field : Bytes) {byte : UInt8} (rest : Bytes)
    (h : byte = 44 ∨ byte = 13) :
    BOM.isPrefixOf (field ++ byte :: rest) = BOM.isPrefixOf field := by
  have hbyte : (0xEF == byte) = false ∧ (0xBB == byte) = false ∧ (0xBF == byte) = false := by
    rcases h with rfl | rfl <;> decide
  obtain ⟨hfirst, hsecond, hthird⟩ := hbyte
  match field with
  | [] => simp [BOM, List.isPrefixOf, hfirst]
  | [_] => simp [BOM, List.isPrefixOf, hsecond]
  | [_, _] => simp [BOM, List.isPrefixOf, hthird]
  | _ :: _ :: _ :: _ => simp [BOM, List.isPrefixOf]

theorem isPrefixOf_rowsOctets (rows : List (List Bytes)) (hrows : ∀ row ∈ rows, Readable row) :
    BOM.isPrefixOf (rowsOctets comma.byte rows) = opensWithBom rows := by
  match rows with
  | [] => rfl
  | [] :: rows => exact absurd rfl (hrows [] (by simp)).1
  | (field :: row) :: rows =>
    obtain ⟨byte, rest, hbyte, htext⟩ := rowsOctets_field row rows
    rw [htext, opensWithBom, fieldOctets]
    by_cases hquoted : needsQuoting comma.byte field = true
    · rw [if_pos hquoted, hquoted]
      simp [BOM, List.isPrefixOf]
    · rw [if_neg hquoted, isPrefixOf_append_other _ _ hbyte]
      simp [hquoted]

theorem records_withoutBom (rows : List (List Bytes)) (hrows : ∀ row ∈ rows, Readable row)
    (h : opensWithBom rows = true) :
    records comma.byte true none ((rowsOctets comma.byte rows).drop 3) ≠
      rows.map fun row => ⟨row, none⟩ := by
  match rows with
  | (field :: row) :: rows =>
    obtain ⟨hmarked, hplain⟩ : BOM.isPrefixOf field = true ∧
        needsQuoting comma.byte field = false := by
      simpa [opensWithBom] using h
    obtain ⟨rest, rfl⟩ := List.isPrefixOf_iff_prefix.mp hmarked
    have hrest : needsQuoting comma.byte rest = false := by
      simp only [needsQuoting, List.any_append, Bool.or_eq_false_iff] at hplain ⊢
      exact ⟨hplain.1.2, hplain.2.2⟩
    have htext : (rowsOctets comma.byte (((BOM ++ rest) :: row) :: rows)).drop 3 =
        rowsOctets comma.byte ((rest :: row) :: rows) := by
      obtain ⟨byte, tail, -, hfield⟩ := rowsOctets_field row rows
      rw [hfield, hfield, fieldOctets, fieldOctets, if_neg (by simp [hplain]),
        if_neg (by simp [hrest])]
      rfl
    have hothers : ∀ other ∈ rows, Readable other := fun other hmem => hrows other (by simp [hmem])
    rw [htext]
    by_cases hblank : rest :: row = [[]]
    · -- the whole row is gone
      have hscan : scan comma.byte .start [] (rowsOctets comma.byte ([[]] :: rows)) =
          scan comma.byte .start [] (rowsOctets comma.byte rows) := by
        have hline : rowsOctets comma.byte ([[]] :: rows) =
            13 :: 10 :: rowsOctets comma.byte rows := rfl
        have hcr : isNewline 13 = true := rfl
        have hlf : isNewline 10 = true := rfl
        rw [hline, scan, if_pos hcr, if_pos rfl, scan, if_pos hlf, if_pos rfl]
      have hsame : records comma.byte true none (rowsOctets comma.byte ([[]] :: rows)) =
          records comma.byte true none (rowsOctets comma.byte rows) := by
        cases heq : scan comma.byte .start [] (rowsOctets comma.byte rows) with
        | none => rw [records_none (hscan.trans heq), records_none heq]
        | some s => rw [records_some (hscan.trans heq), records_some heq]
      rw [hblank, hsame, records_rows comma true none rows hothers (.inl rfl)]
      intro heq
      have hlength := congrArg List.length heq
      simp at hlength
    · have hreadable : ∀ other ∈ (rest :: row) :: rows, Readable other := by
        intro other hmem
        rcases List.mem_cons.mp hmem with rfl | hmem
        · exact ⟨by simp, hblank⟩
        · exact hothers other hmem
      rw [records_rows comma true none _ hreadable (.inl rfl)]
      intro heq
      simp only [List.map_cons, List.cons.injEq, Record.mk.injEq] at heq
      have hlength := congrArg List.length heq.1.1.1
      rw [List.length_append] at hlength
      simp [BOM] at hlength

/-- What default settings write they read back, unless the text opens with an unquoted field
that begins as the mark does. -/
theorem read_of_default_iff (rows : List (List Bytes))
    (hrows : ∀ row ∈ rows, row ≠ [] ∧ row ≠ [[]]) :
    ∃ out, writeAll (.new comma true false) rows = .ok out ∧
      ∀ (chunks : List { chunk : Bytes // chunk ≠ [] }) (extra : Nat), inputOf chunks = out →
        (readAll (out.length + 1 + extra) (unlimited comma true true) .unset (chunked chunks) =
            (none, rows.map fun row => ⟨row, none⟩) ↔
          opensWithBom rows = false) := by
  have hwrite := writeAll_eq rows (.new comma true false) (.inl rfl)
  have hout : (Writer.new comma true false).output ++
      (if rows = [] then [] else (Writer.new comma true false).pendingBom) ++
        rowsOctets (Writer.new comma true false).delimiter.byte rows =
        rowsOctets comma.byte rows := by
    simp [Writer.output, Writer.new, Writer.pendingBom]
  rw [hout] at hwrite
  refine ⟨_, hwrite, fun chunks extra hinput => ?_⟩
  have hread := readAll_chunked comma true true .unset chunks extra
  rw [← hinput, hread, reading]
  simp only [Prod.mk.injEq, true_and, withoutBom]
  rw [hinput, isPrefixOf_rowsOctets rows hrows]
  cases hopens : opensWithBom rows with
  | false =>
    rw [if_neg (by simp)]
    exact iff_of_true (records_rows comma true none rows hrows (.inl rfl)) rfl
  | true =>
    rw [if_pos (by simp)]
    exact iff_of_false (records_withoutBom rows hrows hopens) (by simp)

/-- A quote in the field hides the mark. -/
theorem read_of_default_quoted :
    readAll 10 (unlimited comma true true) .unset
        (chunked [⟨[34, 0xEF, 0xBB, 0xBF, 34, 34, 34, 13, 10], by decide⟩]) =
      (none, [⟨[[0xEF, 0xBB, 0xBF, 34]], none⟩]) := by
  obtain ⟨out, hwrite, hread⟩ := read_of_default_iff [[[0xEF, 0xBB, 0xBF, 34]]] (by decide)
  have hout : writeAll (.new comma true false) [[[0xEF, 0xBB, 0xBF, 34]]] =
      .ok [34, 0xEF, 0xBB, 0xBF, 34, 34, 34, 13, 10] := by decide
  obtain rfl : out = [34, 0xEF, 0xBB, 0xBF, 34, 34, 34, 13, 10] :=
    Except.ok.inj (hwrite.symm.trans hout)
  exact (hread [⟨_, by decide⟩] 0 (by simp [inputOf])).mpr (by decide)

/-- A field of the mark and one letter comes back without the mark. -/
theorem read_of_default_marked :
    writeAll (.new comma true false) [[[0xEF, 0xBB, 0xBF, 97]]] =
        .ok [0xEF, 0xBB, 0xBF, 97, 13, 10] ∧
      readAll 7 (unlimited comma true true) .unset
          (chunked [⟨[0xEF, 0xBB, 0xBF, 97, 13, 10], by decide⟩]) =
        (none, [⟨[[97]], none⟩]) := by
  decide

end Stdx.Csv
