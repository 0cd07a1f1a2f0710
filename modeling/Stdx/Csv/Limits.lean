import Mathlib
import Stdx.Csv.Chunking

/-!
# The size limits of the reader

With limits the reader still follows the grammar, up to the record that stops it.  A
record is within the limits if it has at most `max_record_bytes` octets from its first one
to its terminator, at most `max_columns` fields, and no field of more than
`max_field_bytes`.  The loop checks the limits at the start of a round only, so the rounds
that leave it unchecked are set apart: a line break after an unquoted or empty field, the
end of the input, and the octets of blank lines, which are charged to the record.
-/

namespace Stdx.Csv

open Stdx.Foundation

/-! ## The extent of a record -/

def longer (n : Nat) (e : Nat × List Bytes) : Nat × List Bytes := (e.1 + n, e.2)

@[simp] theorem longer_zero (e : Nat × List Bytes) : longer 0 e = e := rfl

theorem longer_longer (m n : Nat) (e : Nat × List Bytes) :
    longer m (longer n e) = longer (n + m) e := by
  simp [longer, Nat.add_assoc]

def openField : Phase → List Bytes → List Bytes
  | .start, fields => if fields = [] then [] else fields ++ [[]]
  | .unquoted field, fields => fields ++ [field]
  | .quoted field, fields => fields ++ [field]
  | .quoteSeen field, fields => fields ++ [field]

/-- The octets from here to the terminator of the record, and all the fields of the record,
one that is never closed included. -/
def extent (delimiter : UInt8) : Phase → List Bytes → Bytes → Nat × List Bytes
  | phase, fields, [] => (0, openField phase fields)
  | .start, fields, byte :: rest =>
    if isNewline byte then
      if fields = [] then extent delimiter .start [] rest else (0, fields ++ [[]])
    else if byte = delimiter then
      longer 1 (extent delimiter .start (fields ++ [[]]) rest)
    else if byte = 34 then longer 1 (extent delimiter (.quoted []) fields rest)
    else longer 1 (extent delimiter (.unquoted [byte]) fields rest)
  | .unquoted field, fields, byte :: rest =>
    if byte = delimiter then
      longer 1 (extent delimiter .start (fields ++ [field]) rest)
    else if isNewline byte then (0, fields ++ [field])
    else longer 1 (extent delimiter (.unquoted (field ++ [byte])) fields rest)
  | .quoted field, fields, byte :: rest =>
    if byte = 34 then longer 1 (extent delimiter (.quoteSeen field) fields rest)
    else longer 1 (extent delimiter (.quoted (field ++ [byte])) fields rest)
  | .quoteSeen field, fields, byte :: rest =>
    if byte = 34 then longer 1 (extent delimiter (.quoted (field ++ [34])) fields rest)
    else if byte = delimiter then
      longer 1 (extent delimiter .start (fields ++ [field]) rest)
    else if isNewline byte then (0, fields ++ [field])
    else ((rest.findIdx isNewline) + 1, fields ++ [field])

-- the equations of `extent` are made here, once for all the proofs below
section
attribute [local simp] extent
end

theorem extent_start_afterBreak (delimiter byte : UInt8) (rest : Bytes) :
    extent delimiter .start [] (afterBreak byte rest) = extent delimiter .start [] rest := by
  rw [afterBreak]
  split
  · next h =>
    cases rest with
    | nil => simp at h
    | cons b rest =>
      obtain rfl : b = 10 := by simpa using h.2
      simp [extent, isNewline]
  · rfl

theorem extent_unquoted {delimiter : UInt8} {seg : Bytes} (field : Bytes)
    (fields : List Bytes) (rest : Bytes)
    (h : ∀ byte ∈ seg, (byte == delimiter || isNewline byte) = false) :
    extent delimiter (.unquoted field) fields (seg ++ rest) =
      longer seg.length (extent delimiter (.unquoted (field ++ seg)) fields rest) := by
  induction seg generalizing field with
  | nil => simp
  | cons byte seg ih =>
    have hbyte : byte ≠ delimiter ∧ isNewline byte = false := by
      simpa using h byte (by simp)
    rw [List.cons_append, extent, if_neg hbyte.1, hbyte.2, if_neg (by simp),
      ih _ fun b hb => h b (by simp [hb]), List.append_assoc, List.singleton_append]
    rw [longer_longer, List.length_cons]

theorem extent_quoted {delimiter : UInt8} {seg : Bytes} (field : Bytes)
    (fields : List Bytes) (rest : Bytes) (h : ∀ byte ∈ seg, (byte == 34) = false) :
    extent delimiter (.quoted field) fields (seg ++ rest) =
      longer seg.length (extent delimiter (.quoted (field ++ seg)) fields rest) := by
  induction seg generalizing field with
  | nil => simp
  | cons byte seg ih =>
    have hbyte : byte ≠ 34 := by simpa using h byte (by simp)
    rw [List.cons_append, extent, if_neg hbyte, ih _ fun b hb => h b (by simp [hb]),
      List.append_assoc, List.singleton_append]
    rw [longer_longer, List.length_cons]

theorem length_extent_ge (delimiter : UInt8) (phase : Phase) (fields : List Bytes)
    (input : Bytes) : fields.length ≤ (extent delimiter phase fields input).2.length ∧
      fields <+: (extent delimiter phase fields input).2 := by
  have hlead : fields <+: (extent delimiter phase fields input).2 := by
    induction input generalizing phase fields with
    | nil =>
      cases phase <;> simp only [extent, openField]
      case start => split <;> simp_all
      all_goals exact List.prefix_append _ _
    | cons byte rest ih =>
      have hmore (field : Bytes) :
          fields <+: (extent delimiter .start (fields ++ [field]) rest).2 :=
        (List.prefix_append _ _).trans (ih _ _)
      cases phase <;> simp only [extent] <;> split_ifs <;>
        first
        | exact List.prefix_append _ _
        | exact hmore _
        | exact ih _ _
        | simp_all
  exact ⟨hlead.length_le, hlead⟩

theorem length_extent_open (delimiter : UInt8) (phase : Phase) (fields : List Bytes)
    (input : Bytes) (h : phase ≠ .start) :
    fields.length + 1 ≤ (extent delimiter phase fields input).2.length := by
  induction input generalizing phase with
  | nil => cases phase <;> simp_all [extent, openField]
  | cons byte rest ih =>
    have hmore (field : Bytes) :
        fields.length + 1 ≤ (extent delimiter .start (fields ++ [field]) rest).2.length := by
      simpa using (length_extent_ge delimiter .start (fields ++ [field]) rest).1
    cases phase <;> simp only [extent] <;> split_ifs <;>
      first
      | exact absurd rfl h
      | exact hmore _
      | exact ih _ (by simp)
      | simp

theorem open_mem_extent (delimiter : UInt8) (field : Bytes) (fields : List Bytes)
    (input : Bytes) (phase : Phase)
    (h : phase = .unquoted field ∨ phase = .quoted field ∨ phase = .quoteSeen field) :
    ∃ whole ∈ (extent delimiter phase fields input).2, field <+: whole := by
  induction input generalizing field phase with
  | nil =>
    rcases h with rfl | rfl | rfl <;> exact ⟨field, by simp [extent, openField], List.prefix_rfl⟩
  | cons byte rest ih =>
    have hpushed (phase : Phase) :
        field ∈ (extent delimiter phase (fields ++ [field]) rest).2 :=
      (length_extent_ge delimiter phase (fields ++ [field]) rest).2.subset (by simp)
    have hlonger (more : Bytes) (phase : Phase) (hphase : phase = .unquoted (field ++ more) ∨
        phase = .quoted (field ++ more) ∨ phase = .quoteSeen (field ++ more)) :
        ∃ whole ∈ (extent delimiter phase fields rest).2, field <+: whole := by
      obtain ⟨whole, hmem, hlead⟩ := ih (field ++ more) phase hphase
      exact ⟨whole, hmem, (List.prefix_append _ _).trans hlead⟩
    rcases h with rfl | rfl | rfl <;> simp only [extent] <;> split_ifs
    · exact ⟨field, hpushed _, List.prefix_rfl⟩
    · exact ⟨field, by simp, List.prefix_rfl⟩
    · exact hlonger [byte] _ (.inl rfl)
    · exact ih field _ (.inr (.inr rfl))
    · exact hlonger [byte] _ (.inr (.inl rfl))
    · exact hlonger [34] _ (.inr (.inl rfl))
    · exact ⟨field, hpushed _, List.prefix_rfl⟩
    · exact ⟨field, by simp, List.prefix_rfl⟩
    · exact ⟨field, by simp, List.prefix_rfl⟩

/-! ## Without the limits -/

namespace Reader

def free (r : Reader) : Reader :=
  { r with settings := unlimited r.settings.delimiter r.settings.flexible r.settings.stripBom }

theorem fillBuf_limited {r : Reader} (hr : r.free.Sound) :
    (r.source = [] ∧ r.fillBuf = (.ok false, { r with eof := true })) ∨
      ∃ chunk source, chunk ≠ [] ∧ r.source = .ok chunk :: source ∧
        r.fillBuf = (.ok true, r.refill chunk source) := by
  rcases source_cases hr with hend | ⟨chunk, source, hne, hsource⟩
  · exact .inl ⟨hend, fillBuf_end hend⟩
  · have heof : r.eof = false := by
      by_contra heof
      have : r.source = [] := hr.eof_source (by exact Bool.of_not_eq_false heof)
      rw [show r.source = _ from hsource] at this
      cases this
    have hsource' : r.source = .ok chunk :: source := hsource
    exact .inr ⟨chunk, source, hne, hsource', by simp [fillBuf, heof, hsource', hne, refill]⟩

theorem consumeCr_free (r : Reader) : r.free.consumeCr = r.consumeCr.free := by
  rw [consumeCr, consumeCr]
  by_cases h : r.start < r.buf.length ∧ r.byteAt r.start = 13
  · rw [if_pos h, if_pos (by exact h)]
    rfl
  · rw [if_neg h, if_neg (by exact h)]

theorem consumeLf_free (r : Reader) : r.free.consumeLf = r.consumeLf.free := by
  rw [consumeLf, consumeLf]
  by_cases h : r.start < r.buf.length ∧ r.byteAt r.start = 10
  · rw [if_pos h, if_pos (by exact h)]
    rfl
  · rw [if_neg h, if_neg (by exact h)]

theorem consumeNewline_free (r : Reader) : r.free.consumeNewline = r.consumeNewline.free := by
  rw [consumeNewline, consumeCr_free, consumeLf_free]
  rfl

theorem compact_free (r : Reader) : r.free.compact = r.compact.free := by
  rw [compact, compact]
  by_cases hzero : r.start = 0
  · rw [if_pos hzero, if_pos (by exact hzero)]
  · rw [if_neg hzero, if_neg (by exact hzero)]
    by_cases hsmall : r.start < 4096 ∧ r.start * 2 < r.buf.length
    · rw [if_pos hsmall, if_pos (by exact hsmall)]
    · rw [if_neg hsmall, if_neg (by exact hsmall)]
      rfl

theorem openRecord_free (r : Reader) : r.free.openRecord = r.openRecord.free := by
  rw [openRecord, compact_free]
  rfl

theorem fillBuf_free (r : Reader) : r.free.fillBuf = (r.fillBuf.1, r.fillBuf.2.free) := by
  have heof : r.free.eof = r.eof := rfl
  have hsource : r.free.source = r.source := rfl
  rw [fillBuf, fillBuf, heof, hsource]
  split
  · rfl
  · split
    · rfl
    · rfl
    · split <;> rfl

theorem awaitBom_free (fuel : Nat) (r : Reader) :
    awaitBom fuel r.free = ((awaitBom fuel r).1, (awaitBom fuel r).2.free) := by
  induction fuel generalizing r with
  | zero => rfl
  | succ fuel ih =>
    rw [awaitBom, awaitBom, fillBuf_free]
    by_cases hwait : r.buf.length - r.start < 3 ∧ r.eof = false
    · rw [if_pos hwait, if_pos (by exact hwait)]
      cases hfill : r.fillBuf with
      | mk result after =>
        cases result with
        | error kind => rfl
        | ok filled => exact ih after
    · rw [if_neg hwait, if_neg (by exact hwait)]

theorem stripLeadingBom_free (r : Reader) :
    r.free.stripLeadingBom = (r.stripLeadingBom.1, r.stripLeadingBom.2.free) := by
  rw [stripLeadingBom, stripLeadingBom]
  by_cases hchecked : r.bomChecked = true
  · rw [if_pos hchecked, if_pos (by exact hchecked)]
  · rw [if_neg hchecked, if_neg (by exact hchecked)]
    by_cases hstrip : r.settings.stripBom = true
    · have hawait := awaitBom_free (r.source.length + 1) { r with bomChecked := true }
      simp only
      rw [if_pos hstrip, if_pos (by exact hstrip)]
      rw [show awaitBom (r.free.source.length + 1) { r.free with bomChecked := true } = _
        from hawait]
      cases awaitBom (r.source.length + 1) { r with bomChecked := true } with
      | mk result after =>
        cases result with
        | error kind => rfl
        | ok _ =>
          have hhaystack : after.free.haystack = after.haystack := rfl
          simp only [hhaystack]
          split <;> rfl
    · simp only
      rw [if_neg hstrip, if_neg (by exact hstrip)]
      rfl

theorem buildRow_free (r : Reader) (error : Option ReadError) :
    r.free.buildRow error = ((r.buildRow error).1, (r.buildRow error).2.free) := rfl

def Progress.free : Progress → Progress
  | .more r => .more r.free
  | .done row r => .done row r.free

theorem Progress.free_row (result : Row × Reader) :
    (Progress.row result).free = .row (result.1, result.2.free) := rfl

theorem stepStartOfField_free (r : Reader) :
    r.free.stepStartOfField = r.stepStartOfField.free := by
  have hbyte : r.free.byteAt r.free.start = r.byteAt r.start := rfl
  rw [stepStartOfField, stepStartOfField, hbyte]
  simp only
  split
  · by_cases hempty : r.ranges = []
    · rw [if_pos hempty, if_pos (by exact hempty), consumeNewline_free]
      rfl
    · rw [if_neg hempty, if_neg (by exact hempty),
        show r.free.pushRange r.free.start r.free.start .buf =
          (r.pushRange r.start r.start .buf).free from rfl, consumeNewline_free, buildRow_free]
      rfl
  · have hdelimiter : r.free.settings.delimiter = r.settings.delimiter := rfl
    rw [hdelimiter]
    split_ifs <;> rfl

theorem stepEnd_free (r : Reader) : r.free.stepEnd = r.stepEnd.free := by
  rw [stepEnd, stepEnd]
  have hranges : r.free.ranges = r.ranges := rfl
  have hstate : r.free.state = r.state := rfl
  rw [hranges, hstate]
  split
  · rfl
  · cases hs : r.state <;> simp only [finalizeCurrentField, hs, hstate, hranges] <;>
      first | rfl | (split <;> rfl)

/-! ## Rounds, case by case -/

section Cases

variable {r : Reader} {seg tail : Bytes} {byte : UInt8}

theorem findIdx_of_split {p : UInt8 → Bool} {hit : UInt8} (hseg : ∀ b ∈ seg, p b = false)
    (hhit : p hit = true) : (seg ++ hit :: tail).findIdx p = seg.length := by
  rw [List.findIdx_append, if_neg]
  · simp [List.findIdx_cons, hhit]
  · have : seg.findIdx p = seg.length := List.findIdx_eq_length.mpr (by simpa using hseg)
    omega

theorem stepInUnquoted_hit (hsplit : r.haystack = seg ++ byte :: tail)
    (hseg : ∀ b ∈ seg, (b == r.settings.delimiter.byte || isNewline b) = false)
    (hbyte : (byte == r.settings.delimiter.byte || isNewline byte) = true) :
    r.stepInUnquoted =
      match r.fieldLimitExceeded (r.start + seg.length - r.fieldStart) with
      | some kind => .row (r.abandonRecord kind)
      | none =>
        if byte = r.settings.delimiter.byte then
          .more { r.pushRange r.fieldStart (r.start + seg.length) .buf with
            start := r.start + seg.length + 1, state := .startOfField }
        else .row ((consumeNewline { r.pushRange r.fieldStart (r.start + seg.length) .buf with
            start := r.start + seg.length }).buildRow none) := by
  have hoffset := @findIdx_of_split seg tail _ byte hseg hbyte
  have hat : (r.pushRange r.fieldStart (r.start + seg.length) .buf).byteAt
      (r.start + seg.length) = byte := byteAt_offset hsplit
  rw [stepInUnquoted]
  simp only [hsplit, hoffset, List.length_append, List.length_cons]
  rw [if_pos (by omega)]
  cases r.fieldLimitExceeded (r.start + seg.length - r.fieldStart) with
  | some kind => rfl
  | none => simp only [hat]

theorem stepInUnquoted_miss
    (hall : ∀ b ∈ r.haystack, (b == r.settings.delimiter.byte || isNewline b) = false) :
    r.stepInUnquoted =
      match r.fieldLimitExceeded (r.buf.length - r.fieldStart) with
      | some kind => .row ({ r with start := r.buf.length }.abandonRecord kind)
      | none => .more { r with start := r.buf.length } := by
  have hlen : r.haystack.findIdx (fun b => b == r.settings.delimiter.byte || isNewline b) =
      r.haystack.length := List.findIdx_eq_length.mpr (by simpa using hall)
  rw [stepInUnquoted]
  simp only [hlen, lt_irrefl, if_false]
  rfl

theorem stepInQuoted_hit (hsplit : r.haystack = seg ++ 34 :: tail)
    (hseg : ∀ b ∈ seg, (b == 34) = false) :
    r.stepInQuoted =
      match r.fieldLimitExceeded (r.scratch.length - r.scratchFieldStart + seg.length) with
      | some kind => .row (r.abandonRecord kind)
      | none =>
        if r.start + seg.length + 1 < r.buf.length then
          if (r.takeSegment seg).byteAt (r.start + seg.length + 1) = 34 then
            .more ((r.takeSegment seg).escapeQuote (r.start + seg.length + 1))
          else .more ((r.takeSegment seg).closeQuote (r.start + seg.length + 1))
        else (r.takeSegment seg).stepLastQuote (r.start + seg.length + 1) := by
  have hoffset : (seg ++ 34 :: tail).findIdx (· == 34) = seg.length :=
    findIdx_of_split hseg rfl
  rw [stepInQuoted]
  simp only [hsplit, hoffset, List.length_append, List.length_cons]
  rw [if_pos (by omega), List.take_left]
  rfl

def takeAll (r : Reader) : Reader :=
  { r with
    line := r.line + (countLineBreaks r.haystack r.pendingLfQuoted).1
    pendingLfQuoted := (countLineBreaks r.haystack r.pendingLfQuoted).2
    scratch := r.scratch ++ r.haystack
    start := r.buf.length }

theorem stepInQuoted_miss (hall : ∀ b ∈ r.haystack, (b == 34) = false) :
    r.stepInQuoted =
      match r.fieldLimitExceeded ((r.scratch ++ r.haystack).length - r.scratchFieldStart) with
      | some kind => .row (r.takeAll.abandonRecord kind)
      | none => .more r.takeAll := by
  have hlen : r.haystack.findIdx (· == 34) = r.haystack.length :=
    List.findIdx_eq_length.mpr (by simpa using hall)
  rw [stepInQuoted]
  simp only [hlen, lt_irrefl, if_false]
  rfl

end Cases

/-! ## What a run has to keep -/

def consumed (r : Reader) : Nat := r.discarded + r.start - r.recordStart

def phase (r : Reader) : Phase :=
  match r.state with
  | .startOfField => .start
  | .inUnquoted => .unquoted (slice r.buf r.fieldStart r.start)
  | .inQuoted => .quoted (r.scratch.drop r.scratchFieldStart)
  | .afterQuote => .quoteSeen (r.fields.getLast?.getD [])

def settled (r : Reader) : List Bytes :=
  match r.state with
  | .afterQuote => r.fields.dropLast
  | _ => r.fields

theorem phase_settled {r : Reader} {phase : Phase} {fields : List Bytes}
    (h : r.Stands phase fields) : r.phase = phase ∧ r.settled = fields := by
  cases h with
  | start hstate => simp [Reader.phase, settled, hstate]
  | unquoted hstate hstart => simp [Reader.phase, settled, hstate]
  | quoted hstate hstart => simp [Reader.phase, settled, hstate]
  | afterQuote hstate hfields hnext => simp [Reader.phase, settled, hstate, hfields]

def extentLeft (r : Reader) : Nat × List Bytes :=
  extent r.settings.delimiter.byte r.phase r.settled r.remaining

def recordExtent (settings : Settings) (input : Bytes) : Nat × List Bytes :=
  extent settings.delimiter.byte .start [] input

/-- Between the record at the head of `input` and a reader inside it. -/
structure Tracks (r : Reader) (input : Bytes) : Prop where
  fields_within : ∀ limit, r.settings.maxFieldBytes = some limit →
    ∀ field ∈ r.fields, field.length ≤ limit
  extent_fields : r.extentLeft.2 = (recordExtent r.settings input).2
  extent_octets : ∀ limit, r.settings.maxRecordBytes = some limit →
    r.consumed + r.extentLeft.1 = (recordExtent r.settings input).1
  recordStart_le : r.recordStart ≤ r.discarded + r.start

end Reader

/-- A row without error is its record, and that is within the limits; a row that a limit
stopped is of a record that exceeds it. -/
def RowExact (settings : Settings) (input : Bytes) (row : Row) : Prop :=
  match row.error.map ReadError.kind with
  | none =>
    row.fields = (Reader.recordExtent settings input).2 ∧
    (∀ limit, settings.maxRecordBytes = some limit →
      (Reader.recordExtent settings input).1 ≤ limit) ∧
    (∀ limit, settings.maxColumns = some limit → row.fields.length ≤ limit) ∧
    ∀ limit, settings.maxFieldBytes = some limit → ∀ field ∈ row.fields, field.length ≤ limit
  | some (.recordTooLarge limit) =>
    settings.maxRecordBytes = some limit ∧ limit < (Reader.recordExtent settings input).1
  | some (.fieldTooLarge limit) =>
    settings.maxFieldBytes = some limit ∧
      ∃ field ∈ (Reader.recordExtent settings input).2, limit < field.length
  | some (.tooManyColumns limit) =>
    settings.maxColumns = some limit ∧
      limit < (Reader.recordExtent settings input).2.length
  | some _ => True

def LimitsExact (settings : Settings) : Bytes → List Row → Prop
  | _, [] => True
  | input, row :: rows =>
    RowExact settings input row ∧
      LimitsExact settings
        ((scan settings.delimiter.byte .start [] input).elim [] Scanned.rest) rows

namespace Reader

/-! ## Rounds that the limit checks cover -/

/-- The round does not charge a blank line, or the rest of a line break, to a record; and a
record that ends at a line break after an unquoted or empty field ends within limits. -/
structure CheckedByte (r : Reader) : Prop where
  no_charge : ∀ limit, r.settings.maxRecordBytes = some limit →
    ¬(r.pendingCr = true ∧ r.byteAt r.start = 10) ∧
    ¬(r.pendingCr = false ∧ r.state = .startOfField ∧ r.ranges = [] ∧
      isNewline (r.byteAt r.start) = true)
  empty_field : r.state = .startOfField → r.ranges ≠ [] →
    isNewline (r.byteAt r.start) = true →
    ∀ limit, r.settings.maxColumns = some limit → r.ranges.length + 1 ≤ limit
  unquoted_field : r.state = .inUnquoted →
    let offset := r.haystack.findIdx fun byte =>
      byte == r.settings.delimiter.byte || isNewline byte
    offset < r.haystack.length → isNewline (r.byteAt (r.start + offset)) = true →
    (∀ limit, r.settings.maxRecordBytes = some limit → r.consumed + offset ≤ limit) ∧
    ∀ limit, r.settings.maxColumns = some limit → r.ranges.length + 1 ≤ limit

/-- A record that the end of the input ends is within the limits. -/
structure CheckedEnd (r : Reader) : Prop where
  record : r.state ≠ .inQuoted → ∀ limit, r.settings.maxRecordBytes = some limit →
    r.consumed ≤ limit
  columns : r.state ≠ .inQuoted → ∀ limit, r.settings.maxColumns = some limit →
    r.finalizeCurrentField.ranges.length ≤ limit
  field : r.state = .inUnquoted → ∀ limit, r.settings.maxFieldBytes = some limit →
    r.start - r.fieldStart ≤ limit

/-- The condition on the state before a round, after its refill. -/
def CheckedRound (r : Reader) : Prop :=
  match r.available with
  | (true, r) => r.CheckedByte
  | (false, r) => r.CheckedEnd

def CheckedLoop : Nat → Reader → Prop
  | 0, _ => True
  | fuel + 1, r =>
    r.CheckedRound ∧
      match r.step with
      | .more r => CheckedLoop fuel r
      | .done _ _ => True

def CheckedCall (r : Reader) : Prop :=
  match r.openRecord.stripLeadingBom with
  | (.error _, _) => True
  | (.ok _, r) =>
    CheckedLoop (2 * r.bytesLeft + 2) { r with recordStart := r.discarded + r.start }

/-- All the rounds of an iteration. -/
def CheckedRun : Nat → Reader → Prop
  | 0, _ => True
  | fuel + 1, r =>
    r.CheckedCall ∧
      match r.readRow with
      | (none, _) => True
      | (some _, r) => CheckedRun fuel r

instance decidableLimit (setting : Option Nat) (p : Nat → Prop) [DecidablePred p] :
    Decidable (∀ limit, setting = some limit → p limit) :=
  match setting with
  | none => isTrue nofun
  | some limit => decidable_of_iff (p limit) (by simp)

instance (r : Reader) : Decidable r.CheckedByte :=
  decidable_of_iff
    ((∀ limit, r.settings.maxRecordBytes = some limit →
        ¬(r.pendingCr = true ∧ r.byteAt r.start = 10) ∧
        ¬(r.pendingCr = false ∧ r.state = .startOfField ∧ r.ranges = [] ∧
          isNewline (r.byteAt r.start) = true)) ∧
      (r.state = .startOfField → r.ranges ≠ [] → isNewline (r.byteAt r.start) = true →
        ∀ limit, r.settings.maxColumns = some limit → r.ranges.length + 1 ≤ limit) ∧
      (r.state = .inUnquoted →
        let offset := r.haystack.findIdx fun byte =>
          byte == r.settings.delimiter.byte || isNewline byte
        offset < r.haystack.length → isNewline (r.byteAt (r.start + offset)) = true →
        (∀ limit, r.settings.maxRecordBytes = some limit → r.consumed + offset ≤ limit) ∧
        ∀ limit, r.settings.maxColumns = some limit → r.ranges.length + 1 ≤ limit))
    ⟨fun h => ⟨h.1, h.2.1, h.2.2⟩, fun h => ⟨h.1, h.2, h.3⟩⟩

instance (r : Reader) : Decidable r.CheckedEnd :=
  decidable_of_iff
    ((r.state ≠ .inQuoted → ∀ limit, r.settings.maxRecordBytes = some limit →
        r.consumed ≤ limit) ∧
      (r.state ≠ .inQuoted → ∀ limit, r.settings.maxColumns = some limit →
        r.finalizeCurrentField.ranges.length ≤ limit) ∧
      (r.state = .inUnquoted → ∀ limit, r.settings.maxFieldBytes = some limit →
        r.start - r.fieldStart ≤ limit))
    ⟨fun h => ⟨h.1, h.2.1, h.2.2⟩, fun h => ⟨h.1, h.2, h.3⟩⟩

instance (r : Reader) : Decidable r.CheckedRound :=
  match h : r.available with
  | (true, r') => decidable_of_iff r'.CheckedByte (by rw [CheckedRound, h])
  | (false, r') => decidable_of_iff r'.CheckedEnd (by rw [CheckedRound, h])

instance decidableCheckedLoop : (fuel : Nat) → (r : Reader) → Decidable (CheckedLoop fuel r)
  | 0, _ => isTrue trivial
  | fuel + 1, r =>
    have : Decidable (match r.step with
        | .more r => CheckedLoop fuel r
        | .done _ _ => True) :=
      match r.step with
      | .more r => decidableCheckedLoop fuel r
      | .done _ _ => isTrue trivial
    inferInstanceAs (Decidable (_ ∧ _))

instance (r : Reader) : Decidable r.CheckedCall :=
  match h : r.openRecord.stripLeadingBom with
  | (.error _, _) => isTrue (by rw [CheckedCall, h]; trivial)
  | (.ok _, r') =>
    decidable_of_iff (CheckedLoop (2 * r'.bytesLeft + 2)
      { r' with recordStart := r'.discarded + r'.start }) (by rw [CheckedCall, h])

instance decidableCheckedRun : (fuel : Nat) → (r : Reader) → Decidable (CheckedRun fuel r)
  | 0, _ => isTrue trivial
  | fuel + 1, r =>
    have : Decidable (match r.readRow with
        | (none, _) => True
        | (some _, r) => CheckedRun fuel r) :=
      match r.readRow with
      | (none, _) => isTrue trivial
      | (some _, r) => decidableCheckedRun fuel r
    inferInstanceAs (Decidable (_ ∧ _))

/-! ## One round -/

section Rounds

variable {r : Reader} {byte : UInt8} {rest input : Bytes}

/-- What a round has to establish about the record at the head of `input`. -/
def LimitsAt (r : Reader) (input : Bytes) : Progress → Prop
  | .more r' => r'.Tracks input
  | .done row _ => ∀ row', row = some row' → RowExact r.settings input row'

theorem limitExceeded_none (h : r.limitExceeded = none) :
    (∀ limit, r.settings.maxRecordBytes = some limit → r.consumed ≤ limit) ∧
      ∀ limit, r.settings.maxColumns = some limit → r.ranges.length ≤ limit := by
  rw [limitExceeded] at h
  simp only [Option.or_eq_none_iff] at h
  constructor
  · intro limit hlimit
    have := h.1
    rw [hlimit] at this
    simpa [consumed] using this
  · intro limit hlimit
    have := h.2
    rw [hlimit] at this
    simpa using this

theorem fieldLimitExceeded_none {len : Nat} (h : r.fieldLimitExceeded len = none) (limit : Nat)
    (hlimit : r.settings.maxFieldBytes = some limit) : len ≤ limit := by
  rw [fieldLimitExceeded, hlimit] at h
  simpa using h

theorem Tracks.further {r' : Reader} {n : Nat} (h : r.Tracks input)
    (hsettings : r'.settings = r.settings) (hdiscarded : r'.discarded = r.discarded)
    (hrecord : r'.recordStart = r.recordStart) (hstart : r'.start = r.start + n)
    (hextent : r.extentLeft = longer n r'.extentLeft)
    (hfields : ∀ limit, r.settings.maxFieldBytes = some limit →
      ∀ field ∈ r'.fields, field.length ≤ limit) : r'.Tracks input where
  fields_within := by rw [hsettings]; exact hfields
  extent_fields := by
    rw [hsettings, ← h.extent_fields, hextent]
    rfl
  extent_octets := by
    intro limit hlimit
    rw [hsettings] at hlimit ⊢
    have hoctets := h.extent_octets limit hlimit
    have hle := h.recordStart_le
    rw [hextent] at hoctets
    simp only [consumed, longer, hdiscarded, hrecord, hstart] at hoctets ⊢
    omega
  recordStart_le := by
    have := h.recordStart_le
    rw [hrecord, hdiscarded, hstart]
    omega

theorem Tracks.before {r' : Reader} (h : r.Tracks input)
    (hsettings : r'.settings = r.settings) (hdiscarded : r'.discarded = r.discarded)
    (hrecord : r'.recordStart = r.recordStart) (hstart : r.start ≤ r'.start)
    (hextent : r.extentLeft = r'.extentLeft) (hfields : r'.fields = r.fields)
    (hcharge : r'.start = r.start ∨ r.settings.maxRecordBytes = none) : r'.Tracks input where
  fields_within := by rw [hsettings, hfields]; exact h.fields_within
  extent_fields := by rw [hsettings, ← hextent]; exact h.extent_fields
  extent_octets := by
    intro limit hlimit
    rw [hsettings] at hlimit ⊢
    rcases hcharge with hsame | hnone
    · rw [← h.extent_octets limit hlimit, hextent]
      simp only [consumed, hdiscarded, hrecord, hsame]
    · rw [hnone] at hlimit
      cases hlimit
  recordStart_le := by
    have := h.recordStart_le
    rw [hrecord, hdiscarded]
    omega

theorem rowExact_built {r' : Reader} {settings : Settings}
    (hfields : r'.fields = (recordExtent settings input).2)
    (hrecord : ∀ limit, settings.maxRecordBytes = some limit →
      (recordExtent settings input).1 ≤ limit)
    (hcolumns : ∀ limit, settings.maxColumns = some limit → r'.fields.length ≤ limit)
    (hfield : ∀ limit, settings.maxFieldBytes = some limit →
      ∀ field ∈ r'.fields, field.length ≤ limit) :
    RowExact settings input (r'.buildRow none).1 := by
  have hrow : (r'.buildRow none).1.fields = r'.fields := rfl
  have herror : (r'.buildRow none).1.error.map ReadError.kind = none ∨
      ∃ expected found, (r'.buildRow none).1.error.map ReadError.kind =
        some (.inconsistentFieldCount expected found) := by
    cases hnum : r'.numFields with
    | none => simp [buildRow, hnum]
    | some expected =>
      cases hflex : r'.settings.flexible with
      | true => simp [buildRow, hflex]
      | false =>
        by_cases hcount : r'.ranges.length = expected <;>
          simp [buildRow, hnum, hflex, hcount]
  rcases herror with herror | ⟨expected, found, herror⟩
  · rw [RowExact, herror, hrow]
    exact ⟨hfields, hrecord, hcolumns, hfield⟩
  · rw [RowExact, herror]
    trivial

theorem error_of_buildRow (r : Reader) (error : ReadError) :
    (r.buildRow (some error)).1.error = some error := by
  cases hflex : r.settings.flexible <;> simp [buildRow, hflex]

theorem error_of_abandonRecord (r : Reader) (kind : ReadErrorKind) :
    (r.abandonRecord kind).1.error.map ReadError.kind = some kind := by
  simp only [abandonRecord, error_of_buildRow, Option.map_some]

theorem limitsAt_error {r' : Reader} {error : ReadError}
    (hkind : ∀ limit, error.kind ≠ .recordTooLarge limit ∧
      error.kind ≠ .fieldTooLarge limit ∧ error.kind ≠ .tooManyColumns limit) :
    r.LimitsAt input (.row (r'.buildRow (some error))) := by
  rintro row ⟨⟩
  rw [RowExact, error_of_buildRow]
  cases hk : error.kind <;> simp_all

theorem limitsAt_limitExceeded {kind : ReadErrorKind} {r' : Reader} (ht : r.Tracks input)
    (hsettled : r.ranges.length ≤ r.extentLeft.2.length)
    (h : r.limitExceeded = some kind) : r.LimitsAt input (.row (r'.abandonRecord kind)) := by
  rintro row ⟨⟩
  rw [RowExact, error_of_abandonRecord]
  rw [limitExceeded, Option.or_eq_some_iff] at h
  rcases h with hrecord | ⟨-, hcolumns⟩
  · obtain ⟨limit, hlimit, hkind⟩ := Option.bind_eq_some_iff.mp hrecord
    split at hkind
    · next hover =>
      obtain rfl := Option.some.inj hkind
      refine ⟨hlimit, ?_⟩
      have hoctets := ht.extent_octets limit hlimit
      simp only [consumed] at hoctets
      omega
    · cases hkind
  · obtain ⟨limit, hlimit, hkind⟩ := Option.bind_eq_some_iff.mp hcolumns
    split at hkind
    · next hover =>
      obtain rfl := Option.some.inj hkind
      refine ⟨hlimit, ?_⟩
      rw [← ht.extent_fields]
      omega
    · cases hkind

theorem limitsAt_fieldLimit {kind : ReadErrorKind} {r' : Reader} {field : Bytes}
    (ht : r.Tracks input) (hfield : ∃ whole ∈ r.extentLeft.2, field <+: whole)
    (h : r.fieldLimitExceeded field.length = some kind) :
    r.LimitsAt input (.row (r'.abandonRecord kind)) := by
  rintro row ⟨⟩
  rw [RowExact, error_of_abandonRecord]
  obtain ⟨limit, hlimit, hkind⟩ := Option.bind_eq_some_iff.mp h
  split at hkind
  · next hover =>
    obtain rfl := Option.some.inj hkind
    obtain ⟨whole, hmem, hlead⟩ := hfield
    rw [ht.extent_fields] at hmem
    exact ⟨hlimit, whole, hmem, lt_of_lt_of_le hover hlead.length_le⟩
  · cases hkind

theorem limitsAt_startOfField (hr : r.free.Follows .start r.fields) (ht : r.Tracks input)
    (hstate : r.state = .startOfField) (hpending : r.pendingCr = false)
    (hnow : r.haystack = byte :: rest) (hchecked : r.CheckedByte)
    (hlimit : r.limitExceeded = none) : r.LimitsAt input r.stepStartOfField := by
  have hle : r.start ≤ r.buf.length := hr.sound.start_le
  have hb : r.Bounded := hr.bounded
  have hremaining : r.remaining = byte :: (rest ++ delivered r.source) := by
    rw [remaining_of_not_pending hpending, hnow, List.cons_append]
  have hdrop : r.buf.drop (r.start + 1) = rest := @drop_of_haystack r [byte] rest hnow
  have hat : r.byteAt r.start = byte := byteAt_start hnow
  have hnil : r.ranges = [] ↔ r.fields = [] := by simp [fields]
  have hextent : r.extentLeft =
      extent r.settings.delimiter.byte .start r.fields (byte :: (rest ++ delivered r.source)) := by
    simp [extentLeft, phase, settled, hstate, hremaining]
  have hpush : (r.pushRange r.start r.start .buf).fields = r.fields ++ [[]] := by
    simpa [resolve] using @fields_push r (r.pushRange r.start r.start .buf)
      [⟨r.start, r.start, .buf⟩] hb (List.prefix_refl _) (List.prefix_refl _) rfl
  have hwithin (limit : Nat) (hmax : r.settings.maxFieldBytes = some limit) :
      ∀ field ∈ r.fields ++ [[]], field.length ≤ limit := by
    intro field hmem
    rcases List.mem_append.mp hmem with hold | hnew
    · exact ht.fields_within limit hmax field hold
    · simp [List.mem_singleton.mp hnew]
  rw [stepStartOfField, hat]
  simp only
  by_cases hbyte : isNewline byte = true
  · rw [if_pos hbyte]
    by_cases hempty : r.ranges = []
    · rw [if_pos hempty]
      obtain ⟨hafter, hlt, -⟩ := consumeNewline_spec hpending hnow hle hbyte
      have hsame := sameRecord_consumeNewline r
      have hother : r.consumeNewline.discarded = r.discarded ∧
          r.consumeNewline.recordStart = r.recordStart := by
        rw [consumeNewline, consumeLf, consumeCr]
        split_ifs <;> exact ⟨rfl, rfl⟩
      refine ht.before hsame.frame.settings hother.1 hother.2 hlt.le ?_ hsame.fields (.inr ?_)
      · rw [hextent, extent, if_pos hbyte, if_pos (hnil.mp hempty)]
        simp [extentLeft, phase, settled, hsame.state, hstate, hsame.fields, hnil.mp hempty,
          hafter, extent_start_afterBreak, hsame.frame.settings]
      · by_contra hmax
        obtain ⟨limit, hmax⟩ := Option.ne_none_iff_exists'.mp hmax
        exact (hchecked.no_charge limit hmax).2 ⟨hpending, hstate, hempty, by rwa [hat]⟩
    · rw [if_neg hempty]
      rintro row ⟨⟩
      have hfields : ((r.pushRange r.start r.start .buf).consumeNewline).fields =
          r.fields ++ [[]] := (sameRecord_consumeNewline _).fields.trans hpush
      have hrecord : r.extentLeft = (0, r.fields ++ [[]]) := by
        rw [hextent, extent, if_pos hbyte, if_neg (mt hnil.mpr hempty)]
      have hcount : (r.fields ++ [[]]).length = r.ranges.length + 1 := by simp [fields]
      refine rowExact_built ?_ ?_ ?_ ?_
      · rw [hfields, ← ht.extent_fields, hrecord]
      · intro limit hmax
        rw [← ht.extent_octets limit hmax, hrecord]
        exact (limitExceeded_none hlimit).1 limit hmax
      · intro limit hmax
        rw [hfields, hcount]
        exact hchecked.empty_field hstate hempty (by rwa [hat]) limit hmax
      · rw [hfields]
        exact hwithin
  · rw [if_neg hbyte]
    rw [extent, if_neg hbyte] at hextent
    split_ifs with hdelimiter hquote
    · rw [if_pos hdelimiter] at hextent
      refine @Tracks.further r input _ 1 ht rfl rfl rfl rfl ?_ ?_
      · rw [hextent, ← hpush, ← hdrop]
        simp only [extentLeft, phase, settled, hstate, pushRange, remaining, hpending, haystack]
        rfl
      · rw [← hpush] at hwithin
        exact hwithin
    · rw [if_neg hdelimiter, if_pos hquote] at hextent
      refine @Tracks.further r input _ 1 ht rfl rfl rfl rfl ?_ ht.fields_within
      rw [hextent, ← hdrop]
      simp only [extentLeft, phase, settled, remaining, hpending, haystack, List.drop_length]
      rfl
    · rw [if_neg hdelimiter, if_neg hquote] at hextent
      refine @Tracks.further r input _ 1 ht rfl rfl rfl rfl ?_ ht.fields_within
      have hone : slice r.buf r.start (r.start + 1) = [byte] :=
        (@slice_extend _ r.buf [byte] rest _ _ le_rfl hnow).trans (by simp)
      rw [hextent, ← hdrop]
      simp only [extentLeft, phase, settled, remaining, hpending, haystack, hone]
      rfl

theorem limitsAt_inUnquoted
    (hr : r.free.Follows (.unquoted (slice r.buf r.fieldStart r.start)) r.fields)
    (ht : r.Tracks input) (hstate : r.state = .inUnquoted) (hstart : r.fieldStart ≤ r.start)
    (hpending : r.pendingCr = false) (hchecked : r.CheckedByte) :
    r.LimitsAt input r.stepInUnquoted := by
  have hle : r.start ≤ r.buf.length := hr.sound.start_le
  have hb : r.Bounded := hr.bounded
  have hextent : r.extentLeft = extent r.settings.delimiter.byte
      (.unquoted (slice r.buf r.fieldStart r.start)) r.fields
      (r.haystack ++ delivered r.source) := by
    simp [extentLeft, phase, settled, hstate, remaining_of_not_pending hpending]
  have hsize : (slice r.buf r.fieldStart r.start).length = r.start - r.fieldStart := by
    rw [slice, List.length_take, List.length_drop]
    omega
  by_cases hfound : (r.haystack.findIdx fun byte =>
      byte == r.settings.delimiter.byte || isNewline byte) < r.haystack.length
  · obtain ⟨seg, hit, tail, hsplit, hoffset, hseg, hhit⟩ := findIdx_split hfound
    have hlen := length_of_haystack hle hsplit
    have hdrop : r.buf.drop (r.start + seg.length) = hit :: tail := drop_of_haystack hsplit
    have hslice : slice r.buf r.fieldStart (r.start + seg.length) =
        slice r.buf r.fieldStart r.start ++ seg := slice_extend hstart hsplit
    have hfieldSize : (slice r.buf r.fieldStart r.start ++ seg).length =
        r.start + seg.length - r.fieldStart := by
      rw [List.length_append, hsize]
      omega
    have hpush (r' : Reader) (hbuf : r'.buf = r.buf) (hscratch : r'.scratch = r.scratch)
        (hranges : r'.ranges = r.ranges ++ [⟨r.fieldStart, r.start + seg.length, .buf⟩]) :
        r'.fields = r.fields ++ [slice r.buf r.fieldStart r.start ++ seg] := by
      rw [fields_push hb (by rw [hbuf]) (by rw [hscratch]) hranges]
      simp [resolve, hbuf, hslice]
    rw [hsplit, List.append_assoc, extent_unquoted _ _ _ hseg, List.cons_append] at hextent
    rw [stepInUnquoted_hit hsplit hseg hhit]
    cases hfield : r.fieldLimitExceeded (r.start + seg.length - r.fieldStart) with
    | some kind =>
      refine @limitsAt_fieldLimit r input kind r (slice r.buf r.fieldStart r.start ++ seg) ht ?_
        (by rwa [hfieldSize])
      rw [hextent]
      exact open_mem_extent _ _ _ _ _ (.inl rfl)
    | none =>
      have hwithin (limit : Nat) (hmax : r.settings.maxFieldBytes = some limit) :
          ∀ field ∈ r.fields ++ [slice r.buf r.fieldStart r.start ++ seg],
            field.length ≤ limit := by
        intro field hmem
        rcases List.mem_append.mp hmem with hold | hnew
        · exact ht.fields_within limit hmax field hold
        · rw [List.mem_singleton.mp hnew, hfieldSize]
          exact fieldLimitExceeded_none hfield limit hmax
      simp only
      by_cases hdelimiter : hit = r.settings.delimiter.byte
      · rw [if_pos hdelimiter]
        rw [extent, if_pos hdelimiter, longer_longer] at hextent
        have hnew := hpush { r.pushRange r.fieldStart (r.start + seg.length) .buf with
          start := r.start + seg.length + 1, state := .startOfField } rfl rfl rfl
        refine @Tracks.further r input _ (1 + seg.length) ht rfl rfl rfl
          (by simp only; omega) ?_ ?_
        · have hrest : r.buf.drop (r.start + seg.length + 1) = tail := by
            rw [← List.drop_drop, hdrop]
            rfl
          rw [hextent, ← hnew, ← hrest]
          simp only [extentLeft, phase, settled, remaining, pushRange, hpending, haystack]
          rfl
        · rw [hnew]
          exact hwithin
      · rw [if_neg hdelimiter]
        have hnewline : isNewline hit = true := by simpa [hdelimiter] using hhit
        rw [extent, if_neg hdelimiter, if_pos hnewline] at hextent
        obtain ⟨hrecord, hcolumns⟩ := hchecked.unquoted_field hstate hfound (by
          rw [hoffset, byteAt_offset hsplit]
          exact hnewline)
        rintro row ⟨⟩
        have hfields := (sameRecord_consumeNewline
          { r.pushRange r.fieldStart (r.start + seg.length) .buf with
            start := r.start + seg.length }).fields.trans (hpush _ rfl rfl rfl)
        refine rowExact_built ?_ ?_ ?_ ?_
        · rw [hfields, ← ht.extent_fields, hextent]
          rfl
        · intro limit hmax
          have hoctets := ht.extent_octets limit hmax
          have hmost := hrecord limit hmax
          rw [hextent] at hoctets
          simp only [longer] at hoctets
          rw [hoffset] at hmost
          omega
        · intro limit hmax
          rw [hfields, List.length_append, fields, List.length_map]
          exact hcolumns limit hmax
        · rw [hfields]
          exact hwithin
  · have hall := findIdx_miss hfound
    have hend : r.buf.length = r.start + r.haystack.length := by
      rw [haystack, List.length_drop]
      omega
    have hslice : slice r.buf r.fieldStart r.buf.length =
        slice r.buf r.fieldStart r.start ++ r.haystack := by
      rw [hend]
      exact slice_extend hstart (List.append_nil _).symm
    rw [extent_unquoted _ _ _ hall, ← hslice] at hextent
    rw [stepInUnquoted_miss hall]
    cases hfield : r.fieldLimitExceeded (r.buf.length - r.fieldStart) with
    | some kind =>
      refine @limitsAt_fieldLimit r input kind _ (slice r.buf r.fieldStart r.buf.length) ht ?_ ?_
      · rw [hextent]
        exact open_mem_extent _ _ _ _ _ (.inl rfl)
      · rwa [slice_length, List.length_drop]
    | none =>
      refine @Tracks.further r input _ r.haystack.length ht rfl rfl rfl hend ?_
        ht.fields_within
      rw [hextent]
      simp [extentLeft, phase, settled, remaining, hpending, haystack, hstate]
      rfl

theorem limitsAt_afterQuote {field : Bytes} {fields : List Bytes}
    (ht : r.Tracks input) (hstate : r.state = .afterQuote) (hfields : r.fields = fields ++ [field])
    (hnext : r.remaining.head? ≠ some 34) (hpending : r.pendingCr = false)
    (hnow : r.haystack = byte :: rest) (hlimit : r.limitExceeded = none) :
    r.LimitsAt input r.stepAfterQuote := by
  have hremaining : r.remaining = byte :: (rest ++ delivered r.source) := by
    rw [remaining_of_not_pending hpending, hnow, List.cons_append]
  have hdrop : r.buf.drop (r.start + 1) = rest := @drop_of_haystack r [byte] rest hnow
  have hquote : byte ≠ 34 := by simpa [hremaining] using hnext
  have hextent : r.extentLeft = extent r.settings.delimiter.byte (.quoteSeen field) fields
      (byte :: (rest ++ delivered r.source)) := by
    simp [extentLeft, phase, settled, hstate, hfields, hremaining]
  rw [extent, if_neg hquote] at hextent
  rw [stepAfterQuote, byteAt_start hnow]
  split_ifs with hdelimiter hnewline
  · rw [if_pos hdelimiter] at hextent
    refine @Tracks.further r input _ 1 ht rfl rfl rfl rfl ?_ ht.fields_within
    rw [hextent, ← hfields, ← hdrop]
    simp only [extentLeft, phase, settled, remaining, hpending, haystack]
    rfl
  · rw [if_neg hdelimiter, if_pos hnewline] at hextent
    rintro row ⟨⟩
    have hsame := (sameRecord_consumeNewline r).fields
    obtain ⟨hrecord, hcolumns⟩ := limitExceeded_none hlimit
    refine rowExact_built ?_ ?_ ?_ ?_
    · rw [hsame, ← ht.extent_fields, hextent, hfields]
    · intro limit hmax
      rw [← ht.extent_octets limit hmax, hextent]
      exact hrecord limit hmax
    · intro limit hmax
      rw [hsame, Reader.fields, List.length_map]
      exact hcolumns limit hmax
    · rw [hsame]
      exact ht.fields_within
  · rintro row ⟨⟩
    rw [RowExact, error_of_abandonRecord]
    trivial

theorem extentLeft_start (hstate : r.state = .startOfField) (hranges : r.ranges = []) :
    r.extentLeft = extent r.settings.delimiter.byte .start [] r.remaining := by
  simp [extentLeft, phase, settled, hstate, fields, hranges]

theorem limitsAt_pendingCr (hstate : r.state = .startOfField) (hranges : r.ranges = [])
    (ht : r.Tracks input) (hpending : r.pendingCr = true) (hnow : r.haystack = byte :: rest)
    (hchecked : r.CheckedByte) :
    r.LimitsAt input (.more { r with
      start := if r.byteAt r.start = 10 then r.start + 1 else r.start
      pendingCr := false }) := by
  refine ht.before rfl rfl rfl (by simp only; split <;> omega) ?_ rfl ?_
  · rw [extentLeft_start hstate hranges, extentLeft_start (by exact hstate) (by exact hranges),
      remaining_pendingCr hpending hnow]
  · by_cases hlf : r.byteAt r.start = 10
    · right
      by_contra hmax
      obtain ⟨limit, hmax⟩ := Option.ne_none_iff_exists'.mp hmax
      exact (hchecked.no_charge limit hmax).1 ⟨hpending, hlf⟩
    · left
      simp only [hlf, if_false]

theorem tracks_refill {chunk : Bytes} {source : List Delivery} (hr : r.free.Sound)
    (hb : r.Bounded) (hsource : r.source = .ok chunk :: source) (ht : r.Tracks input) :
    (r.refill chunk source).Tracks input := by
  have hfields := @fields_refill r chunk source hb
  have hremaining : (r.refill chunk source).remaining = r.remaining :=
    @remaining_refill r.free chunk source hr hsource
  have hslice : slice (r.buf ++ chunk) r.fieldStart r.start = slice r.buf r.fieldStart r.start :=
    slice_append hr.start_le
  have hextent : r.extentLeft = (r.refill chunk source).extentLeft := by
    have hphase : (r.refill chunk source).phase = r.phase := by
      cases hstate : r.state <;> simp [phase, refill, hstate, hslice]
      exact congrArg (fun fs : List Bytes => fs.getLast?.getD []) hfields
    have hsettled : (r.refill chunk source).settled = r.settled := by
      cases hstate : r.state <;> simp only [settled, refill, hstate]
      case afterQuote => exact congrArg List.dropLast hfields
      all_goals exact hfields
    rw [extentLeft, extentLeft, hphase, hsettled, hremaining]
    rfl
  exact ht.before rfl rfl rfl le_rfl hextent hfields (.inl rfl)

section Quoted

variable {seg tail : Bytes}

theorem extentLeft_quote (hstate : r.state = .inQuoted) (hpending : r.pendingCr = false)
    (hstart : r.scratchFieldStart ≤ r.scratch.length)
    (hsplit : r.haystack = seg ++ 34 :: tail) (hseg : ∀ b ∈ seg, (b == 34) = false) :
    r.extentLeft = longer (1 + seg.length) (extent r.settings.delimiter.byte
      (.quoteSeen ((r.scratch ++ seg).drop r.scratchFieldStart)) r.fields
      (tail ++ delivered r.source)) := by
  simp only [extentLeft, phase, settled, hstate]
  rw [remaining_of_not_pending hpending, hsplit, List.append_assoc, extent_quoted _ _ _ hseg,
    List.cons_append, extent, if_pos rfl, longer_longer, List.drop_append_of_le_length hstart]

theorem tracks_closeQuote {eof : Bool} (hb : r.Bounded) (ht : r.Tracks input)
    (hstate : r.state = .inQuoted) (hpending : r.pendingCr = false)
    (hstart : r.scratchFieldStart ≤ r.scratch.length)
    (hsplit : r.haystack = seg ++ 34 :: tail) (hseg : ∀ b ∈ seg, (b == 34) = false)
    (hlimit : r.fieldLimitExceeded (r.scratch.length - r.scratchFieldStart + seg.length) = none) :
    ({ r.takeSegment seg with eof := eof }.closeQuote (r.start + seg.length + 1)).Tracks
      input := by
  have hdrop : r.buf.drop (r.start + seg.length + 1) = tail := by
    rw [← List.drop_drop, drop_of_haystack hsplit]
    rfl
  have hfield : slice (r.scratch ++ seg) r.scratchFieldStart (r.scratch ++ seg).length =
      (r.scratch ++ seg).drop r.scratchFieldStart := slice_length _ _
  have hfields : ({ r.takeSegment seg with eof := eof }.closeQuote
      (r.start + seg.length + 1)).fields =
        r.fields ++ [(r.scratch ++ seg).drop r.scratchFieldStart] := by
    rw [fields_push hb (by exact List.prefix_refl _) (by exact List.prefix_append _ _) (by rfl),
      ← hfield]
    rfl
  refine @Tracks.further r input _ (1 + seg.length) ht rfl rfl rfl
    (by simp only [closeQuote]; omega) ?_ ?_
  · rw [extentLeft_quote hstate hpending hstart hsplit hseg, ← hdrop]
    have hphase : ({ r.takeSegment seg with eof := eof }.closeQuote
        (r.start + seg.length + 1)).phase =
          .quoteSeen ((r.scratch ++ seg).drop r.scratchFieldStart) := by
      simp only [phase, closeQuote] at hfields ⊢
      rw [hfields, List.getLast?_append, List.getLast?_singleton]
      rfl
    have hsettled : ({ r.takeSegment seg with eof := eof }.closeQuote
        (r.start + seg.length + 1)).settled = r.fields := by
      simp only [settled, closeQuote] at hfields ⊢
      rw [hfields, List.dropLast_concat]
    rw [extentLeft, hphase, hsettled, remaining_of_not_pending (by exact hpending)]
    rfl
  · intro limit hmax field hmem
    rw [hfields] at hmem
    rcases List.mem_append.mp hmem with hold | hnew
    · exact ht.fields_within limit hmax field hold
    · rw [List.mem_singleton.mp hnew, List.length_drop, List.length_append]
      have := fieldLimitExceeded_none hlimit limit hmax
      omega

theorem tracks_escapeQuote (hb : r.Bounded) (ht : r.Tracks input)
    (hstate : r.state = .inQuoted) (hpending : r.pendingCr = false)
    (hstart : r.scratchFieldStart ≤ r.scratch.length)
    (hsplit : r.haystack = seg ++ 34 :: 34 :: tail) (hseg : ∀ b ∈ seg, (b == 34) = false) :
    ((r.takeSegment seg).escapeQuote (r.start + seg.length + 1)).Tracks input := by
  have hdrop : r.buf.drop (r.start + seg.length + 1 + 1) = tail := by
    rw [← List.drop_drop, ← List.drop_drop, drop_of_haystack hsplit]
    rfl
  have hfields : ((r.takeSegment seg).escapeQuote (r.start + seg.length + 1)).fields =
      r.fields := by
    have := @fields_push r ((r.takeSegment seg).escapeQuote (r.start + seg.length + 1)) [] hb
      (List.prefix_refl _) (by simp [escapeQuote, takeSegment]) (List.append_nil _).symm
    simpa using this
  have hcontent : ((r.takeSegment seg).escapeQuote (r.start + seg.length + 1)).scratch.drop
      r.scratchFieldStart = (r.scratch ++ seg).drop r.scratchFieldStart ++ [34] := by
    simp only [escapeQuote, takeSegment]
    rw [List.drop_append_of_le_length (by rw [List.length_append]; omega)]
  refine @Tracks.further r input _ (1 + (1 + seg.length)) ht rfl rfl rfl
    (by simp only [escapeQuote]; omega) ?_ (by rw [hfields]; exact ht.fields_within)
  have hphase : ((r.takeSegment seg).escapeQuote (r.start + seg.length + 1)).phase =
      .quoted ((r.scratch ++ seg).drop r.scratchFieldStart ++ [34]) := by
    rw [← hcontent]
    simp only [phase, escapeQuote, takeSegment, hstate]
  have hsettled : ((r.takeSegment seg).escapeQuote (r.start + seg.length + 1)).settled =
      r.fields := by
    rw [← hfields]
    simp only [settled, escapeQuote, takeSegment, hstate]
  rw [extentLeft_quote hstate hpending hstart hsplit hseg, List.cons_append, extent, if_pos rfl,
    longer_longer, extentLeft, hphase, hsettled, remaining_of_not_pending (by exact hpending),
    ← hdrop]
  rfl

theorem limitsAt_inQuoted
    (hr : r.free.Follows (.quoted (r.scratch.drop r.scratchFieldStart)) r.fields)
    (ht : r.Tracks input) (hstate : r.state = .inQuoted)
    (hstart : r.scratchFieldStart ≤ r.scratch.length) (hpending : r.pendingCr = false) :
    r.LimitsAt input r.stepInQuoted := by
  have hle : r.start ≤ r.buf.length := hr.sound.start_le
  have hb : r.Bounded := hr.bounded
  by_cases hfound : r.haystack.findIdx (· == 34) < r.haystack.length
  · obtain ⟨seg, hit, tail, hsplit, -, hseg, hhit⟩ := findIdx_split hfound
    obtain rfl : hit = 34 := by simpa using hhit
    have hlen := length_of_haystack hle hsplit
    rw [stepInQuoted_hit hsplit hseg]
    cases hfield : r.fieldLimitExceeded
        (r.scratch.length - r.scratchFieldStart + seg.length) with
    | some kind =>
      refine @limitsAt_fieldLimit r input kind r ((r.scratch ++ seg).drop r.scratchFieldStart)
        ht ?_ ?_
      · rw [extentLeft_quote hstate hpending hstart hsplit hseg]
        exact open_mem_extent _ _ _ _ _ (.inr (.inr rfl))
      · rw [List.length_drop, List.length_append,
          show r.scratch.length + seg.length - r.scratchFieldStart =
            r.scratch.length - r.scratchFieldStart + seg.length by omega]
        exact hfield
    | none =>
      simp only
      cases tail with
      | cons next tail =>
        simp only [List.length_cons] at hlen
        rw [if_pos (by omega)]
        have hbyte : (r.takeSegment seg).byteAt (r.start + seg.length + 1) = next := by
          have := @byteAt_offset r (seg ++ [34]) tail next (by simp [hsplit])
          rwa [List.length_append, ← Nat.add_assoc] at this
        rw [hbyte]
        split
        · next hquote =>
          rw [hquote] at hsplit
          exact tracks_escapeQuote hb ht hstate hpending hstart hsplit hseg
        · exact @tracks_closeQuote r input _ _ r.eof hb ht hstate hpending hstart hsplit
            hseg hfield
      | nil =>
        simp only [List.length_singleton] at hlen
        rw [if_neg (by omega), stepLastQuote]
        have hsound : (r.takeSegment seg).free.Sound := ⟨hr.sound.1, hr.sound.2, hr.sound.3,
          hr.sound.4, hr.sound.5, hr.sound.6⟩
        rcases fillBuf_limited hsound with ⟨-, hfill⟩ | ⟨chunk, source, hne, hsource, hfill⟩
        · rw [hfill]
          simp only [Bool.false_eq_true, false_and, if_false]
          exact tracks_closeQuote hb ht hstate hpending hstart hsplit hseg hfield
        · rw [hfill]
          obtain ⟨next, chunk, rfl⟩ := List.exists_cons_of_ne_nil hne
          have ht' := tracks_refill hr.sound hb hsource ht
          have hb' : (r.refill (next :: chunk) source).Bounded :=
            (@follows_refill r.free (next :: chunk) source _ _ hr hsource).bounded
          have hsplit' : (r.refill (next :: chunk) source).haystack =
              seg ++ 34 :: next :: chunk := by
            have := @haystack_refill r.free (next :: chunk) source hr.sound
            rw [show r.free.haystack = _ from hsplit, List.append_assoc,
              List.singleton_append] at this
            exact this
          have hget : ((r.takeSegment seg).refill (next :: chunk) source).buf[
              r.start + seg.length + 1]? = some next := by
            simp only [refill, takeSegment]
            rw [List.getElem?_append_right (by omega), show
              r.start + seg.length + 1 - r.buf.length = 0 by omega]
            rfl
          simp only [hget]
          by_cases hquote : next = 34
          · subst hquote
            rw [if_pos ⟨trivial, rfl⟩]
            exact tracks_escapeQuote hb' ht' hstate hpending hstart hsplit' hseg
          · rw [if_neg fun h => hquote (Option.some.inj h.2)]
            exact @tracks_closeQuote (r.refill (next :: chunk) source) input _ _ r.eof hb' ht'
              hstate hpending hstart hsplit' hseg hfield
  · have hall := findIdx_miss hfound
    have hend : r.buf.length = r.start + r.haystack.length := by
      rw [haystack, List.length_drop]
      omega
    have hextent : r.extentLeft = longer r.haystack.length (extent r.settings.delimiter.byte
        (.quoted ((r.scratch ++ r.haystack).drop r.scratchFieldStart)) r.fields
        (delivered r.source)) := by
      simp only [extentLeft, phase, settled, hstate]
      rw [remaining_of_not_pending hpending, extent_quoted _ _ _ hall,
        List.drop_append_of_le_length hstart]
    rw [stepInQuoted_miss hall]
    cases hfield : r.fieldLimitExceeded
        ((r.scratch ++ r.haystack).length - r.scratchFieldStart) with
    | some kind =>
      refine @limitsAt_fieldLimit r input kind _
        ((r.scratch ++ r.haystack).drop r.scratchFieldStart) ht ?_ ?_
      · rw [hextent]
        exact open_mem_extent _ _ _ _ _ (.inr (.inl rfl))
      · rwa [List.length_drop]
    | none =>
      have hfields : r.takeAll.fields = r.fields := by
        have := @fields_push r r.takeAll [] hb (List.prefix_refl _)
          (List.prefix_append _ _) (List.append_nil _).symm
        simpa using this
      refine @Tracks.further r input r.takeAll r.haystack.length ht rfl rfl rfl hend ?_
        (by rw [hfields]; exact ht.fields_within)
      rw [hextent, ← hfields]
      have hremaining : r.takeAll.remaining = delivered r.source := by
        rw [remaining_of_not_pending (by exact hpending)]
        simp [takeAll, haystack]
      simp only [extentLeft, phase, settled, takeAll, hstate] at hremaining ⊢
      rw [hremaining]

end Quoted

theorem limitsAt_end {phase : Phase} {fields : List Bytes} (hr : r.free.Follows phase fields)
    (ht : r.Tracks input) (hempty : r.haystack = []) (hsource : r.source = [])
    (hchecked : r.CheckedEnd) : r.LimitsAt input r.stepEnd := by
  have hle : r.start ≤ r.buf.length := hr.sound.start_le
  have hb : r.Bounded := hr.bounded
  have hremaining : r.remaining = [] := by
    rw [remaining, hempty, hsource]
    simp [delivered]
  have hextent : r.extentLeft = (0, openField r.phase r.settled) := by
    rw [extentLeft, hremaining, extent]
  -- every exit but that of an open quote builds a row of the open field and those before it
  have hrow (hopen : r.state ≠ .inQuoted)
      (hfields : r.finalizeCurrentField.fields = openField r.phase r.settled)
      (hfield : ∀ limit, r.settings.maxFieldBytes = some limit →
        ∀ field ∈ r.finalizeCurrentField.fields, field.length ≤ limit) :
      RowExact r.settings input (r.finalizeCurrentField.buildRow none).1 := by
    refine rowExact_built ?_ ?_ ?_ hfield
    · rw [hfields, ← ht.extent_fields, hextent]
    · intro limit hmax
      rw [← ht.extent_octets limit hmax, hextent]
      exact hchecked.record hopen limit hmax
    · intro limit hmax
      rw [Reader.fields, List.length_map]
      exact hchecked.columns hopen limit hmax
  have hpush (start : Nat) : (r.pushRange start r.start .buf).fields =
      r.fields ++ [slice r.buf start r.start] :=
    @fields_push r (r.pushRange start r.start .buf) [⟨start, r.start, .buf⟩] hb
      (List.prefix_refl _) (List.prefix_refl _) rfl
  have hlast (start : Nat) (limit : Nat) (hmax : r.settings.maxFieldBytes = some limit)
      (hsize : r.start - start ≤ limit) :
      ∀ field ∈ r.fields ++ [slice r.buf start r.start], field.length ≤ limit := by
    intro field hmem
    rcases List.mem_append.mp hmem with hold | hnew
    · exact ht.fields_within limit hmax field hold
    · rw [List.mem_singleton.mp hnew, slice, List.length_take]
      omega
  rw [stepEnd]
  split
  · rintro row ⟨⟩
  · next hsome =>
    cases hstate : r.state with
    | inQuoted =>
      exact limitsAt_error fun limit => by simp
    | startOfField =>
      have hne : r.ranges ≠ [] := fun h => hsome ⟨h, hstate⟩
      have hfinal : r.finalizeCurrentField = r.pushRange r.start r.start .buf := by
        simp [finalizeCurrentField, hstate, hne]
      have hfields : r.fields ≠ [] := by simpa [Reader.fields] using hne
      rintro row ⟨⟩
      refine hrow (by simp [hstate]) ?_ ?_
      · rw [hfinal, hpush, slice_self]
        simp [Reader.phase, settled, hstate, openField, hfields]
      · intro limit hmax
        rw [hfinal, hpush]
        exact hlast _ limit hmax (by omega)
    | inUnquoted =>
      have hfinal : r.finalizeCurrentField = r.pushRange r.fieldStart r.start .buf := by
        simp [finalizeCurrentField, hstate]
      rintro row ⟨⟩
      refine hrow (by simp [hstate]) ?_ ?_
      · rw [hfinal, hpush]
        simp [Reader.phase, settled, hstate, openField]
      · intro limit hmax
        rw [hfinal, hpush]
        exact hlast _ limit hmax (hchecked.field hstate limit hmax)
    | afterQuote =>
      have hfinal : r.finalizeCurrentField = r := by simp [finalizeCurrentField, hstate]
      rintro row ⟨⟩
      refine hrow (by simp [hstate]) ?_ (by rw [hfinal]; exact ht.fields_within)
      rw [hfinal]
      obtain ⟨hphase, hsettled⟩ := phase_settled hr.stands
      cases hr.stands with
      | start h => exact absurd (h.symm.trans hstate) (by simp)
      | unquoted h => exact absurd (h.symm.trans hstate) (by simp)
      | quoted h => exact absurd (h.symm.trans hstate) (by simp)
      | afterQuote h hlastField hnext =>
        rw [show r.phase = _ from hphase, show r.settled = _ from hsettled, openField]
        exact hlastField

theorem limitsAt_byte {phase : Phase} {fields : List Bytes} (hr : r.free.Follows phase fields)
    (ht : r.Tracks input) (hnow : r.haystack = byte :: rest) (hchecked : r.CheckedByte) :
    r.LimitsAt input r.stepByte := by
  obtain ⟨hphase, hsettled⟩ := phase_settled hr.stands
  rw [stepByte]
  cases hlimit : r.limitExceeded with
  | some kind =>
    refine limitsAt_limitExceeded ht ?_ hlimit
    have hcount : r.ranges.length = r.fields.length := by simp [Reader.fields]
    rw [hcount, extentLeft, show r.phase = _ from hphase, show r.settled = _ from hsettled]
    cases hr.stands with
    | start => exact (length_extent_ge _ _ _ _).1
    | unquoted => exact (length_extent_ge _ _ _ _).1
    | quoted => exact (length_extent_ge _ _ _ _).1
    | afterQuote hstate hfields hnext =>
      rw [show r.fields = _ from hfields, List.length_append]
      exact length_extent_open _ _ _ _ (by simp)
  | none =>
    simp only
    split
    · next hpending =>
      obtain ⟨hp, hf⟩ := hr.pending hpending
      cases hr.stands with
      | start hstate =>
        refine limitsAt_pendingCr hstate ?_ ht hpending hnow hchecked
        have : r.fields = [] := hf
        simpa [Reader.fields] using this
      | unquoted => cases hp
      | quoted => cases hp
      | afterQuote => cases hp
    · next hpending =>
      have hpending' : r.pendingCr = false := by simpa using hpending
      cases hr.stands with
      | start hstate =>
        rw [show r.state = _ from hstate]
        exact limitsAt_startOfField hr ht hstate hpending' hnow hchecked hlimit
      | unquoted hstate hstart =>
        rw [show r.state = _ from hstate]
        exact limitsAt_inUnquoted hr ht hstate hstart hpending' hchecked
      | quoted hstate hstart =>
        rw [show r.state = _ from hstate]
        exact limitsAt_inQuoted hr ht hstate hstart hpending'
      | afterQuote hstate hfields hnext =>
        rw [show r.state = _ from hstate]
        exact limitsAt_afterQuote ht hstate hfields hnext hpending' hnow hlimit

end Rounds

/-! ## The limited reader follows the grammar until it stops -/

def Keeps (r r' : Reader) : Prop := r'.settings = r.settings ∧ r'.bomChecked = r.bomChecked

theorem Keeps.trans {r₁ r₂ r₃ : Reader} (h₁ : Keeps r₁ r₂) (h₂ : Keeps r₂ r₃) : Keeps r₁ r₃ :=
  ⟨h₂.1.trans h₁.1, h₂.2.trans h₁.2⟩

theorem keeps_fillBuf (r : Reader) : Keeps r r.fillBuf.2 := by
  rw [fillBuf]
  split
  · exact ⟨rfl, rfl⟩
  · split
    · exact ⟨rfl, rfl⟩
    · exact ⟨rfl, rfl⟩
    · split <;> exact ⟨rfl, rfl⟩

theorem keeps_awaitBom (fuel : Nat) (r : Reader) : Keeps r (awaitBom fuel r).2 := by
  induction fuel generalizing r with
  | zero => exact ⟨rfl, rfl⟩
  | succ fuel ih =>
    rw [awaitBom]
    split
    · have hfill := keeps_fillBuf r
      cases h : r.fillBuf with
      | mk result after =>
        rw [h] at hfill
        cases result with
        | error kind => exact hfill
        | ok filled => exact hfill.trans (ih after)
    · exact ⟨rfl, rfl⟩

theorem settings_stripLeadingBom (r : Reader) :
    r.stripLeadingBom.2.settings = r.settings := by
  rw [stripLeadingBom]
  split
  · rfl
  · simp only
    split
    · have hawait := keeps_awaitBom (r.source.length + 1) { r with bomChecked := true }
      cases h : awaitBom (r.source.length + 1) { r with bomChecked := true } with
      | mk result after =>
        rw [h] at hawait
        cases result with
        | error kind => exact hawait.1
        | ok _ =>
          simp only
          split
          · exact hawait.1
          · exact hawait.1
    · rfl

theorem keeps_available (r : Reader) : Keeps r r.available.2 := by
  have hfill := keeps_fillBuf r
  rw [available]
  split
  · split
    · next heq => rw [heq] at hfill; exact hfill
    · next heq => rw [heq] at hfill; exact hfill
  · exact ⟨rfl, rfl⟩

theorem keeps_consumeNewline (r : Reader) : Keeps r r.consumeNewline :=
  ⟨(sameRecord_consumeNewline r).frame.settings, (sameRecord_consumeNewline r).frame.bomChecked⟩

theorem keeps_skipBuffered (r : Reader) : Keeps r r.skipBuffered.2 := by
  rw [skipBuffered]
  split
  · exact ⟨rfl, rfl⟩
  · simp only
    split
    · exact keeps_consumeNewline { r with start := r.start + r.haystack.findIdx isNewline }
    · split
      · split <;> exact ⟨rfl, rfl⟩
      · exact ⟨rfl, rfl⟩

theorem keeps_skipRecordTail (fuel : Nat) (r : Reader) : Keeps r (skipRecordTail fuel r).2 := by
  induction fuel generalizing r with
  | zero => exact ⟨rfl, rfl⟩
  | succ fuel ih =>
    have havailable := keeps_available r
    rw [skipRecordTail]
    split
    · next heq => rw [heq] at havailable; exact havailable
    · next r₁ heq =>
      rw [heq] at havailable
      have hskip := keeps_skipBuffered r₁
      split
      · next heq' => rw [heq'] at hskip; exact havailable.trans hskip
      · next r₂ heq' => rw [heq'] at hskip; exact (havailable.trans hskip).trans (ih r₂)

theorem keeps_finalizeCurrentField (r : Reader) : Keeps r r.finalizeCurrentField := by
  rw [finalizeCurrentField]
  split
  · exact ⟨rfl, rfl⟩
  · exact ⟨rfl, rfl⟩
  · exact ⟨rfl, rfl⟩
  · split <;> exact ⟨rfl, rfl⟩

theorem keeps_abandonRecord (r : Reader) (kind : ReadErrorKind) :
    Keeps r (r.abandonRecord kind).2 := by
  have hskip := (keeps_finalizeCurrentField r).trans
    (keeps_skipRecordTail (r.finalizeCurrentField.bytesLeft + 2) r.finalizeCurrentField)
  simp only [abandonRecord]
  cases kind <;> first
    | exact ⟨rfl, rfl⟩
    | (simp only; split <;> exact hskip)

/-- At the end of what it will ever read. -/
def Stopped (r : Reader) : Prop := r.eof = true ∧ r.start = r.buf.length

/-- A round of the limited reader goes on along the grammar, or ends with the reader stopped
or in front of the next record. -/
def Simulates (r : Reader) (expected : Option Scanned) : Progress → Prop
  | .more r' => Keeps r r' ∧ r'.effort < r.effort ∧ ∃ phase fields, r'.free.Follows phase fields ∧
      scan r.settings.delimiter.byte phase fields r'.remaining = expected
  | .done _ r' => Keeps r r' ∧
      (r'.Stopped ∨ (r'.free.Sound ∧ r'.remaining = expected.elim [] Scanned.rest))

theorem simulates_stopped {r r' : Reader} {expected : Option Scanned} {kind : ReadErrorKind}
    (hkeeps : Keeps r r') (hkind : ∃ limit, kind = .recordTooLarge limit ∨
      kind = .fieldTooLarge limit ∨ kind = .tooManyColumns limit) :
    r.Simulates expected (.row (r'.abandonRecord kind)) := by
  refine ⟨hkeeps.trans (keeps_abandonRecord r' kind), .inl ?_⟩
  obtain ⟨limit, rfl | rfl | rfl⟩ := hkind <;> exact ⟨rfl, rfl⟩

theorem kind_of_limitExceeded {r : Reader} {kind : ReadErrorKind}
    (h : r.limitExceeded = some kind) : ∃ limit, kind = .recordTooLarge limit ∨
      kind = .fieldTooLarge limit ∨ kind = .tooManyColumns limit := by
  rw [limitExceeded, Option.or_eq_some_iff] at h
  rcases h with h | ⟨-, h⟩
  · obtain ⟨limit, -, hkind⟩ := Option.bind_eq_some_iff.mp h
    split at hkind
    · exact ⟨limit, .inl (Option.some.inj hkind).symm⟩
    · cases hkind
  · obtain ⟨limit, -, hkind⟩ := Option.bind_eq_some_iff.mp h
    split at hkind
    · exact ⟨limit, .inr (.inr (Option.some.inj hkind).symm)⟩
    · cases hkind

theorem kind_of_fieldLimitExceeded {r : Reader} {len : Nat} {kind : ReadErrorKind}
    (h : r.fieldLimitExceeded len = some kind) : ∃ limit, kind = .recordTooLarge limit ∨
      kind = .fieldTooLarge limit ∨ kind = .tooManyColumns limit := by
  obtain ⟨limit, -, hkind⟩ := Option.bind_eq_some_iff.mp h
  split at hkind
  · exact ⟨limit, .inr (.inl (Option.some.inj hkind).symm)⟩
  · cases hkind

theorem simulates_of_advances {r : Reader} {expected : Option Scanned} {progress : Progress}
    (hkeeps : match progress with | .more r' => Keeps r r' | .done _ r' => Keeps r r')
    (h : r.free.Advances expected progress.free) : r.Simulates expected progress := by
  cases progress with
  | more r' =>
    obtain ⟨phase, fields, hfollows, hscan, heffort, -⟩ := h
    exact ⟨hkeeps, heffort, phase, fields, hfollows, hscan⟩
  | done row r' => exact ⟨hkeeps, .inr ⟨h.sound, h.remaining⟩⟩

/-- Skipping ends behind the line, or gives up at the end of the buffer. -/
def SkipsLimited (r : Reader) (out : Bool × Reader) : Prop :=
  (out.1 = false ∧ out.2.start = out.2.buf.length) ∨
    (out.1 = true ∧ out.2.free.Sound ∧ out.2.remaining = skipLine r.remaining)

theorem skipsLimited_buffered {r : Reader} {byte : UInt8} {rest : Bytes} {fuel : Nat}
    (hr : r.free.Sound) (hpending : r.pendingCr = false) (hnow : r.haystack = byte :: rest)
    (ih : ∀ r : Reader, r.free.Sound → r.pendingCr = false → r.bytesLeft < fuel →
      SkipsLimited r (skipRecordTail fuel r)) (hfuel : r.bytesLeft < fuel + 1) :
    SkipsLimited r (match r.skipBuffered with
      | (some found, r) => (found, r)
      | (none, r) => skipRecordTail fuel r) := by
  have hle : r.start ≤ r.buf.length := hr.start_le
  rw [skipBuffered, if_neg (by simp [hpending])]
  by_cases hfound : r.haystack.findIdx isNewline < r.haystack.length
  · simp only [hfound, if_true]
    obtain ⟨seg, hit, tail, hsplit, hoffset, hseg, hhit⟩ := findIdx_split hfound
    rw [hoffset]
    have hlen := length_of_haystack hle hsplit
    let here : Reader := { r with start := r.start + seg.length }
    have hle' : here.start ≤ here.buf.length := by simp only [here]; omega
    obtain ⟨hremaining, -, hstop⟩ :=
      @consumeNewline_spec here hit tail hpending (drop_of_haystack hsplit) hle' hhit
    have hsound : here.free.Sound := ⟨hle', hr.2, hr.3, hr.4, hr.5, hr.6⟩
    have hsame := sameRecord_consumeNewline here.free
    rw [consumeNewline_free] at hsame
    refine .inr ⟨rfl, hsame.sound hsound (by rw [hsame.buf]; exact hstop), ?_⟩
    rw [hremaining, remaining_of_not_pending hpending, hsplit, List.append_assoc,
      skipLine_append _ hseg, List.cons_append, skipLine, if_pos hhit]
  · simp only [hfound, if_false]
    have hend : r.buf.length = r.start + (rest.length + 1) := by
      have := congrArg List.length hnow
      rw [haystack, List.length_drop, List.length_cons] at this
      omega
    have hmore : SkipsLimited r (skipRecordTail fuel { r with start := r.buf.length }) := by
      have hskip := ih { r with start := r.buf.length } ⟨le_rfl, hr.2, hr.3, hr.4, hr.5, hr.6⟩
        hpending (by simp only [bytesLeft] at hfuel ⊢; omega)
      refine hskip.imp_right fun hfinished => ?_
      obtain ⟨hdone, hsound, hremaining⟩ := hfinished
      refine ⟨hdone, hsound, ?_⟩
      rw [hremaining, remaining_of_not_pending hpending,
        skipLine_append _ (findIdx_miss hfound), remaining_of_not_pending (by exact hpending)]
      simp [haystack]
    cases r.settings.maxRecordBytes with
    | none => exact hmore
    | some limit =>
      simp only
      by_cases hover : r.discarded + r.buf.length - r.recordStart > limit
      · rw [if_pos hover]
        exact .inl ⟨rfl, rfl⟩
      · rw [if_neg hover]
        exact hmore

theorem skipsLimited_recordTail (fuel : Nat) (r : Reader) (hr : r.free.Sound)
    (hpending : r.pendingCr = false) (hfuel : r.bytesLeft < fuel) :
    SkipsLimited r (skipRecordTail fuel r) := by
  induction fuel generalizing r with
  | zero => omega
  | succ fuel ih =>
    have hle : r.start ≤ r.buf.length := hr.start_le
    rw [skipRecordTail, available]
    by_cases hempty : r.buf.length ≤ r.start
    · have hnone : r.haystack = [] := List.drop_eq_nil_of_le hempty
      rw [if_pos hempty]
      rcases fillBuf_limited hr with ⟨-, hfill⟩ | ⟨chunk, source, hne, hsource, hfill⟩
      · rw [hfill]
        exact .inl ⟨rfl, by simp only; omega⟩
      · rw [hfill]
        obtain ⟨byte, rest, rfl⟩ := List.exists_cons_of_ne_nil hne
        have hleft : (r.refill (byte :: rest) source).bytesLeft + 1 = r.bytesLeft :=
          @bytesLeft_refill r.free _ _ hr hsource
        have hhay : (r.refill (byte :: rest) source).haystack = byte :: rest := by
          have := @haystack_refill r.free (byte :: rest) source hr
          rw [show r.free.haystack = [] from hnone, List.nil_append] at this
          exact this
        have hskip := @skipsLimited_buffered (r.refill (byte :: rest) source) byte rest fuel
          (@sound_refill r.free _ _ hr hsource) hpending hhay ih (by omega)
        have hremaining : (r.refill (byte :: rest) source).remaining = r.remaining :=
          @remaining_refill r.free _ _ hr hsource
        rw [SkipsLimited, hremaining] at hskip
        exact hskip
    · rw [if_neg hempty]
      cases hnow : r.haystack with
      | nil => exact absurd (List.drop_eq_nil_iff.mp hnow) hempty
      | cons byte rest => exact skipsLimited_buffered hr hpending hnow ih hfuel

section Rounds

variable {r : Reader} {byte : UInt8} {rest : Bytes}

theorem simulates_trailingContent {s : Scanned} (hr : r.free.Sound)
    (hstate : r.state = .afterQuote) (hpending : r.pendingCr = false)
    (hrest : s.rest = skipLine r.remaining) :
    r.Simulates (some s) (.row (r.abandonRecord .trailingContent)) := by
  refine ⟨keeps_abandonRecord r _, ?_⟩
  have hfinal : r.finalizeCurrentField = r := by simp [finalizeCurrentField, hstate]
  have hskip := skipsLimited_recordTail (r.bytesLeft + 2) r hr hpending (by omega)
  simp only [abandonRecord, hfinal]
  rcases hskip with ⟨hfound, hend⟩ | ⟨hfound, hsound, hremaining⟩
  · left
    simp only [hfound, Bool.false_eq_true, if_false]
    exact ⟨rfl, hend⟩
  · right
    simp only [hfound, if_true]
    refine ⟨⟨hsound.1, hsound.2, hsound.3, hsound.4, hsound.5, hsound.6⟩, ?_⟩
    rw [Option.elim_some, hrest]
    exact hremaining

theorem simulates_startOfField (hr : r.free.Follows .start r.fields)
    (hstate : r.state = .startOfField) (hpending : r.pendingCr = false)
    (hnow : r.haystack = byte :: rest) :
    r.Simulates (scan r.settings.delimiter.byte .start r.fields r.remaining)
      r.stepStartOfField := by
  have hadvances := @advances_startOfField r.free byte rest hr hstate hpending hnow
  rw [stepStartOfField_free] at hadvances
  refine simulates_of_advances ?_ hadvances
  rw [stepStartOfField]
  simp only
  split_ifs
  · exact keeps_consumeNewline r
  · exact keeps_consumeNewline (r.pushRange r.start r.start .buf)
  · exact ⟨rfl, rfl⟩
  · exact ⟨rfl, rfl⟩
  · exact ⟨rfl, rfl⟩

theorem simulates_inUnquoted
    (hr : r.free.Follows (.unquoted (slice r.buf r.fieldStart r.start)) r.fields)
    (hstart : r.fieldStart ≤ r.start) (hstate : r.state = .inUnquoted)
    (hnow : r.haystack = byte :: rest) (hpending : r.pendingCr = false) :
    r.Simulates (scan r.settings.delimiter.byte
      (.unquoted (slice r.buf r.fieldStart r.start)) r.fields r.remaining) r.stepInUnquoted := by
  have hadvances := @advances_inUnquoted r.free byte rest hr hstart hstate hnow hpending
  have hfree (len : Nat) : r.free.fieldLimitExceeded len = none := rfl
  by_cases hfound : (r.haystack.findIdx fun byte =>
      byte == r.settings.delimiter.byte || isNewline byte) < r.haystack.length
  · obtain ⟨seg, hit, tail, hsplit, -, hseg, hhit⟩ := findIdx_split hfound
    rw [@stepInUnquoted_hit r.free seg tail hit hsplit hseg hhit, hfree] at hadvances
    rw [stepInUnquoted_hit hsplit hseg hhit]
    cases hfield : r.fieldLimitExceeded (r.start + seg.length - r.fieldStart) with
    | some kind => exact simulates_stopped ⟨rfl, rfl⟩ (kind_of_fieldLimitExceeded hfield)
    | none =>
      simp only at hadvances ⊢
      by_cases hdelimiter : hit = r.settings.delimiter.byte
      · rw [if_pos (by exact hdelimiter)] at hadvances
        rw [if_pos hdelimiter]
        exact simulates_of_advances ⟨rfl, rfl⟩ hadvances
      · rw [if_neg (by exact hdelimiter)] at hadvances
        rw [if_neg hdelimiter]
        refine simulates_of_advances (keeps_consumeNewline
          { r.pushRange r.fieldStart (r.start + seg.length) .buf with
            start := r.start + seg.length }) ?_
        have hcommute := consumeNewline_free
          { r.pushRange r.fieldStart (r.start + seg.length) .buf with
            start := r.start + seg.length }
        rw [Progress.free_row]
        rw [show consumeNewline { r.free.pushRange r.free.fieldStart
          (r.free.start + seg.length) .buf with start := r.free.start + seg.length } = _ from
          hcommute] at hadvances
        exact hadvances
  · have hall := findIdx_miss hfound
    rw [@stepInUnquoted_miss r.free hall] at hadvances
    rw [stepInUnquoted_miss hall]
    cases hfield : r.fieldLimitExceeded (r.buf.length - r.fieldStart) with
    | some kind =>
      exact simulates_stopped ⟨rfl, rfl⟩ (kind_of_fieldLimitExceeded hfield)
    | none => exact simulates_of_advances ⟨rfl, rfl⟩ hadvances

theorem simulates_inQuoted
    (hr : r.free.Follows (.quoted (r.scratch.drop r.scratchFieldStart)) r.fields)
    (hstate : r.state = .inQuoted) (hstart : r.scratchFieldStart ≤ r.scratch.length)
    (hpending : r.pendingCr = false) (hnow : r.haystack = byte :: rest) :
    r.Simulates (scan r.settings.delimiter.byte
      (.quoted (r.scratch.drop r.scratchFieldStart)) r.fields r.remaining) r.stepInQuoted := by
  have hadvances := @advances_inQuoted r.free byte rest hr hstate hstart hpending hnow
  have hfree (len : Nat) : r.free.fieldLimitExceeded len = none := rfl
  by_cases hfound : r.haystack.findIdx (· == 34) < r.haystack.length
  · obtain ⟨seg, hit, tail, hsplit, -, hseg, hhit⟩ := findIdx_split hfound
    obtain rfl : hit = 34 := by simpa using hhit
    rw [@stepInQuoted_hit r.free seg tail hsplit hseg, hfree] at hadvances
    rw [stepInQuoted_hit hsplit hseg]
    cases hfield : r.fieldLimitExceeded
        (r.scratch.length - r.scratchFieldStart + seg.length) with
    | some kind => exact simulates_stopped ⟨rfl, rfl⟩ (kind_of_fieldLimitExceeded hfield)
    | none =>
      simp only at hadvances ⊢
      by_cases hlt : r.start + seg.length + 1 < r.buf.length
      · rw [if_pos (by exact hlt)] at hadvances
        rw [if_pos hlt]
        by_cases hquote : (r.takeSegment seg).byteAt (r.start + seg.length + 1) = 34
        · rw [if_pos (by exact hquote)] at hadvances
          rw [if_pos hquote]
          exact simulates_of_advances ⟨rfl, rfl⟩ hadvances
        · rw [if_neg (by exact hquote)] at hadvances
          rw [if_neg hquote]
          exact simulates_of_advances ⟨rfl, rfl⟩ hadvances
      · rw [if_neg (by exact hlt)] at hadvances
        rw [if_neg hlt]
        have hsound : (r.takeSegment seg).free.Sound := ⟨hr.sound.1, hr.sound.2, hr.sound.3,
          hr.sound.4, hr.sound.5, hr.sound.6⟩
        rw [stepLastQuote] at hadvances ⊢
        rcases fillBuf_limited hsound with ⟨hend, hfill⟩ | ⟨chunk, source, hne, hsource, hfill⟩
        · rw [@fillBuf_end (r.free.takeSegment seg) hend] at hadvances
          rw [hfill]
          exact simulates_of_advances ⟨rfl, rfl⟩ hadvances
        · rw [@fillBuf_chunk (r.free.takeSegment seg) chunk source hsound hsource] at hadvances
          rw [hfill]
          simp only [true_and] at hadvances ⊢
          by_cases hquote : ((r.takeSegment seg).refill chunk source).buf[
              r.start + seg.length + 1]? = some 34
          · rw [if_pos (by exact hquote)] at hadvances
            rw [if_pos hquote]
            exact simulates_of_advances ⟨rfl, rfl⟩ hadvances
          · rw [if_neg (by exact hquote)] at hadvances
            rw [if_neg hquote]
            exact simulates_of_advances ⟨rfl, rfl⟩ hadvances
  · have hall := findIdx_miss hfound
    rw [@stepInQuoted_miss r.free hall] at hadvances
    rw [stepInQuoted_miss hall]
    cases hfield : r.fieldLimitExceeded
        ((r.scratch ++ r.haystack).length - r.scratchFieldStart) with
    | some kind => exact simulates_stopped ⟨rfl, rfl⟩ (kind_of_fieldLimitExceeded hfield)
    | none => exact simulates_of_advances ⟨rfl, rfl⟩ hadvances

theorem simulates_afterQuote {field : Bytes} {fields : List Bytes}
    (hr : r.free.Follows (.quoteSeen field) fields) (hstate : r.state = .afterQuote)
    (hfields : r.fields = fields ++ [field]) (hnext : r.remaining.head? ≠ some 34)
    (hnow : r.haystack = byte :: rest) (hpending : r.pendingCr = false) :
    r.Simulates (scan r.settings.delimiter.byte (.quoteSeen field) fields r.remaining)
      r.stepAfterQuote := by
  have hadvances := @advances_afterQuote r.free byte rest field fields hr hstate hfields hnext
    hnow hpending
  rw [stepAfterQuote, @byteAt_start r.free byte rest hnow] at hadvances
  rw [stepAfterQuote, byteAt_start hnow]
  by_cases hdelimiter : byte = r.settings.delimiter.byte
  · rw [if_pos (by exact hdelimiter)] at hadvances
    rw [if_pos hdelimiter]
    exact simulates_of_advances ⟨rfl, rfl⟩ hadvances
  · rw [if_neg (by exact hdelimiter)] at hadvances
    rw [if_neg hdelimiter]
    by_cases hnewline : isNewline byte = true
    · rw [if_pos hnewline, consumeNewline_free] at hadvances
      rw [if_pos hnewline]
      exact simulates_of_advances (keeps_consumeNewline r) hadvances
    · rw [if_neg hnewline]
      have hremaining : r.remaining = byte :: (rest ++ delivered r.source) := by
        rw [remaining_of_not_pending hpending, hnow, List.cons_append]
      have hquote : byte ≠ 34 := by simpa [hremaining] using hnext
      rw [hremaining, scan, if_neg hquote, if_neg hdelimiter, if_neg hnewline]
      refine simulates_trailingContent hr.sound hstate hpending ?_
      rw [hremaining, skipLine, if_neg hnewline]

theorem simulates_byte {phase : Phase} {fields : List Bytes} (hr : r.free.Follows phase fields)
    (hnow : r.haystack = byte :: rest) :
    r.Simulates (scan r.settings.delimiter.byte phase fields r.remaining) r.stepByte := by
  rw [stepByte]
  cases hlimit : r.limitExceeded with
  | some kind => exact simulates_stopped ⟨rfl, rfl⟩ (kind_of_limitExceeded hlimit)
  | none =>
    simp only
    split
    · next hpending =>
      exact simulates_of_advances ⟨rfl, rfl⟩ (@advances_pendingCr r.free byte rest phase fields
        hr hpending hnow)
    · next hpending =>
      have hpending' : r.pendingCr = false := by simpa using hpending
      cases hr.stands with
      | start hstate =>
        rw [show r.state = _ from hstate]
        exact simulates_startOfField hr hstate hpending' hnow
      | unquoted hstate hstart =>
        rw [show r.state = _ from hstate]
        exact simulates_inUnquoted hr hstart hstate hnow hpending'
      | quoted hstate hstart =>
        rw [show r.state = _ from hstate]
        exact simulates_inQuoted hr hstate hstart hpending' hnow
      | afterQuote hstate hfields hnext =>
        rw [show r.state = _ from hstate]
        exact simulates_afterQuote hr hstate hfields hnext hnow hpending'

theorem simulates_end {phase : Phase} {fields : List Bytes} (hr : r.free.Follows phase fields)
    (hempty : r.haystack = []) (hsource : r.source = []) :
    r.Simulates (scan r.settings.delimiter.byte phase fields r.remaining) r.stepEnd := by
  have hadvances := @advances_end r.free phase fields hr hempty hsource
  rw [stepEnd_free] at hadvances
  refine simulates_of_advances ?_ hadvances
  by_cases hnone : r.ranges = [] ∧ r.state = .startOfField
  · rw [stepEnd, if_pos hnone]
    exact ⟨rfl, rfl⟩
  · rw [stepEnd, if_neg hnone]
    cases hstate : r.state with
    | inQuoted => exact ⟨rfl, rfl⟩
    | startOfField => exact keeps_finalizeCurrentField r
    | inUnquoted => exact keeps_finalizeCurrentField r
    | afterQuote => exact keeps_finalizeCurrentField r

end Rounds

/-! ## Runs -/

theorem step_limits {r : Reader} {phase : Phase} {fields : List Bytes} {input : Bytes}
    (hr : r.free.Follows phase fields) (ht : r.Tracks input) (hchecked : r.CheckedRound) :
    r.Simulates (scan r.settings.delimiter.byte phase fields r.remaining) r.step ∧
      r.LimitsAt input r.step := by
  have hb : r.Bounded := hr.bounded
  rw [step]
  rw [CheckedRound, available] at hchecked
  by_cases hempty : r.buf.length ≤ r.start
  · have hnone : r.haystack = [] := List.drop_eq_nil_of_le hempty
    rw [if_pos hempty] at hchecked ⊢
    rcases fillBuf_limited hr.sound with ⟨hend, hfill⟩ | ⟨chunk, source, hne, hsource, hfill⟩
    · rw [hfill] at hchecked ⊢
      have hr' := @follows_eof r.free phase fields hr hend
      have ht' : Tracks { r with eof := true } input := ⟨ht.1, ht.2, ht.3, ht.4⟩
      have hsim := @simulates_end { r with eof := true } phase fields hr' hnone hend
      have hlim := @limitsAt_end { r with eof := true } input phase fields hr' ht' hnone hend
        hchecked
      simp only
      cases hstep : stepEnd { r with eof := true } with
      | more r' =>
        rw [hstep] at hsim hlim
        exact ⟨hsim, hlim⟩
      | done row r' =>
        rw [hstep] at hsim hlim
        exact ⟨hsim, hlim⟩
    · rw [hfill] at hchecked ⊢
      obtain ⟨byte, rest, rfl⟩ := List.exists_cons_of_ne_nil hne
      have hr' := @follows_refill r.free (byte :: rest) source phase fields hr hsource
      have ht' := tracks_refill hr.sound hb hsource ht
      have hhay : (r.refill (byte :: rest) source).haystack = byte :: rest := by
        have := @haystack_refill r.free (byte :: rest) source hr.sound
        rw [show r.free.haystack = [] from hnone, List.nil_append] at this
        exact this
      have hremaining : (r.refill (byte :: rest) source).remaining = r.remaining :=
        @remaining_refill r.free _ _ hr.sound hsource
      have hleft : (r.refill (byte :: rest) source).bytesLeft + 1 = r.bytesLeft :=
        @bytesLeft_refill r.free _ _ hr.sound hsource
      have heffort : (r.refill (byte :: rest) source).effort < r.effort := by
        rw [effort, effort, ← hleft]
        simp only [refill]
        omega
      have hsim := @simulates_byte (r.refill (byte :: rest) source) byte rest phase fields hr' hhay
      have hlim := @limitsAt_byte (r.refill (byte :: rest) source) byte rest input phase fields
        hr' ht' hhay hchecked
      rw [hremaining] at hsim
      simp only
      cases hstep : (r.refill (byte :: rest) source).stepByte with
      | more r' =>
        rw [hstep] at hsim hlim
        exact ⟨⟨hsim.1, hsim.2.1.trans heffort, hsim.2.2⟩, hlim⟩
      | done row r' =>
        rw [hstep] at hsim hlim
        exact ⟨hsim, hlim⟩
  · rw [if_neg hempty] at hchecked ⊢
    cases hnow : r.haystack with
    | nil => exact absurd (List.drop_eq_nil_iff.mp hnow) hempty
    | cons byte rest => exact ⟨simulates_byte hr hnow, limitsAt_byte hr ht hnow hchecked⟩

theorem loop_limits (fuel : Nat) (r : Reader) (phase : Phase) (fields : List Bytes)
    (input : Bytes) (hr : r.free.Follows phase fields) (ht : r.Tracks input)
    (hchecked : CheckedLoop fuel r) (hfuel : r.effort < fuel) :
    Keeps r (loop fuel r).2 ∧
      (∀ row, (loop fuel r).1 = some row → RowExact r.settings input row) ∧
      ((loop fuel r).2.Stopped ∨ ((loop fuel r).2.free.Sound ∧ (loop fuel r).2.remaining =
        (scan r.settings.delimiter.byte phase fields r.remaining).elim [] Scanned.rest)) := by
  induction fuel generalizing r phase fields with
  | zero => omega
  | succ fuel ih =>
    obtain ⟨hround, hlater⟩ := hchecked
    obtain ⟨hsim, hlim⟩ := step_limits hr ht hround
    rw [loop]
    cases hstep : r.step with
    | done row r' =>
      rw [hstep] at hsim hlim
      exact ⟨hsim.1, hlim, hsim.2⟩
    | more r' =>
      rw [hstep] at hsim hlim hlater
      obtain ⟨hkeeps, heffort, phase', fields', hfollows, hscan⟩ := hsim
      obtain ⟨hkeeps', hrow, hend⟩ := ih r' phase' fields' hfollows hlim hlater (by omega)
      rw [hkeeps.1] at hrow hend
      rw [hscan] at hend
      exact ⟨hkeeps.trans hkeeps', hrow, hend⟩

theorem tracks_start {r : Reader} (hranges : r.ranges = []) (hstate : r.state = .startOfField) :
    Tracks { r with recordStart := r.discarded + r.start } r.remaining where
  fields_within := by
    intro limit _ field hmem
    have hnone : fields { r with recordStart := r.discarded + r.start } = [] := by
      simp [fields, hranges]
    rw [hnone] at hmem
    cases hmem
  extent_fields := by
    rw [extentLeft_start (by exact hstate) (by exact hranges)]
    rfl
  extent_octets := by
    intro limit _
    rw [extentLeft_start (by exact hstate) (by exact hranges), consumed]
    simp only [Nat.sub_self, Nat.zero_add]
    rfl
  recordStart_le := le_rfl

theorem readRow_stopped {r : Reader} (h : r.Stopped) (hchecked : r.bomChecked = true) :
    r.readRow.1 = none := by
  have hopen : r.openRecord.eof = true ∧ r.openRecord.buf.length ≤ r.openRecord.start ∧
      r.openRecord.bomChecked = true := by
    simp only [openRecord, compact]
    split_ifs
    · exact ⟨h.1, h.2.ge, hchecked⟩
    · exact ⟨h.1, h.2.ge, hchecked⟩
    · refine ⟨h.1, ?_, hchecked⟩
      simp [haystack, h.2]
  have hstrip : r.openRecord.stripLeadingBom = (.ok (), r.openRecord) := by
    simp [stripLeadingBom, hopen.2.2]
  rw [readRow_eq hstrip, loop, step, if_pos (by exact hopen.2.1)]
  have hfill : fillBuf { r.openRecord with
      recordStart := r.openRecord.discarded + r.openRecord.start } = (.ok false,
        { r.openRecord with recordStart := r.openRecord.discarded + r.openRecord.start }) := by
    rw [fillBuf, if_pos (by exact hopen.1)]
  rw [hfill]
  rfl

theorem readRow_limits {r r' : Reader} {input : Bytes}
    (hstrip : r.openRecord.stripLeadingBom = (.ok (), r')) (hr : r'.free.Sound)
    (hranges : r'.ranges = []) (hstate : r'.state = .startOfField)
    (hinput : r'.remaining = input) (hchecked : r.CheckedCall) :
    Keeps r' r.readRow.2 ∧
      (∀ row, r.readRow.1 = some row → RowExact r'.settings input row) ∧
      (r.readRow.2.Stopped ∨ (r.readRow.2.free.Sound ∧ r.readRow.2.remaining =
        (scan r'.settings.delimiter.byte .start [] input).elim [] Scanned.rest)) := by
  subst hinput
  rw [CheckedCall, hstrip] at hchecked
  have hfollows : (free { r' with recordStart := r'.discarded + r'.start }).Follows .start [] :=
    follows_start ⟨hr.1, hr.2, hr.3, hr.4, hr.5, hr.6⟩ hranges hstate
  have hloop := loop_limits (2 * r'.bytesLeft + 2)
    { r' with recordStart := r'.discarded + r'.start } .start [] r'.remaining hfollows
    (tracks_start hranges hstate) hchecked (effort_lt_fuel _)
  rw [← readRow_eq hstrip] at hloop
  exact hloop

theorem rows_limits (fuel : Nat) (r : Reader) (settings : Settings) (input : Bytes)
    (hsettings : r.settings = settings) (hbom : r.bomChecked = true)
    (h : r.Stopped ∨ (r.free.Sound ∧ r.remaining = input)) (hchecked : CheckedRun fuel r) :
    LimitsExact settings input (rows fuel r) := by
  induction fuel generalizing r input with
  | zero => trivial
  | succ fuel ih =>
    obtain ⟨hcall, hlater⟩ := hchecked
    rw [rows]
    cases hread : r.readRow with
    | mk row after =>
      cases row with
      | none => trivial
      | some row =>
        rw [hread] at hlater
        rcases h with hstopped | ⟨hsound, hremaining⟩
        · have := readRow_stopped hstopped hbom
          rw [hread] at this
          cases this
        · have hframe := frame_openRecord r
          have hopen : r.openRecord.bomChecked = true := hframe.bomChecked.trans hbom
          have hstrip : r.openRecord.stripLeadingBom = (.ok (), r.openRecord) := by
            simp [stripLeadingBom, hopen]
          have hsound' : r.openRecord.free.Sound := by
            have := @sound_openRecord r.free hsound
            rwa [openRecord_free] at this
          have hcallLimits := readRow_limits hstrip hsound' rfl rfl
            ((remaining_openRecord r).trans hremaining) hcall
          rw [hread, hframe.settings, hsettings] at hcallLimits
          obtain ⟨hkeeps, hrow, hnext⟩ := hcallLimits
          exact ⟨hrow row rfl, ih after _ (hkeeps.1.trans (hframe.settings.trans hsettings))
            (hkeeps.2.trans hopen) hnext hlater⟩

theorem fresh_limits {r : Reader} (hsound : r.free.Sound) (hfresh : r.bomChecked = false)
    (hpending : r.pendingCr = false) (hchecked : r.CheckedCall) :
    r.readRow.2.settings = r.settings ∧ r.readRow.2.bomChecked = true ∧
      (∀ row, r.readRow.1 = some row →
        RowExact r.settings (withoutBom r.settings.stripBom r.remaining) row) ∧
      (r.readRow.2.Stopped ∨ (r.readRow.2.free.Sound ∧ r.readRow.2.remaining =
        (scan r.settings.delimiter.byte .start []
          (withoutBom r.settings.stripBom r.remaining)).elim [] Scanned.rest)) := by
  have hframe := frame_openRecord r
  have hopen : r.openRecord.free.Sound := by
    have := @sound_openRecord r.free hsound
    rwa [openRecord_free] at this
  have hpending' : r.openRecord.pendingCr = false := by
    simp only [openRecord, compact]
    split_ifs <;> exact hpending
  obtain ⟨r', hstrip, hstrips⟩ := strips_leadingBom hopen
    (hframe.bomChecked.trans hfresh) hpending'
  rw [stripLeadingBom_free] at hstrip
  obtain ⟨hok, hfree⟩ := Prod.mk.injEq .. ▸ hstrip
  cases hafter : r.openRecord.stripLeadingBom with
  | mk result after =>
    rw [hafter] at hok hfree
    cases hok
    obtain ⟨hkeep, hbom⟩ : after.settings = r.settings ∧ after.bomChecked = true := by
      have hsettings := settings_stripLeadingBom r.openRecord
      rw [hafter] at hsettings
      exact ⟨hsettings.trans hframe.settings, (congrArg Reader.bomChecked hfree).trans
        hstrips.bomChecked⟩
    have hremaining : after.remaining = withoutBom r.settings.stripBom r.remaining := by
      have hstripped := hstrips.remaining
      rw [← hfree] at hstripped
      rw [← remaining_openRecord r, ← hframe.settings]
      exact hstripped
    have hcall := readRow_limits hafter (hfree ▸ hstrips.sound)
      ((congrArg Reader.ranges hfree).trans hstrips.ranges)
      ((congrArg Reader.state hfree).trans hstrips.state) hremaining hchecked
    rw [hkeep] at hcall
    obtain ⟨hkeeps, hrow, hnext⟩ := hcall
    exact ⟨hkeeps.1.trans hkeep, hkeeps.2.trans hbom, hrow, hnext⟩

end Reader

/-- However the source cuts the input, in a run whose rounds all meet the condition the
limits are exact: a row without error is a record within all of them, and a row that a
limit stopped is of a record that exceeds it. -/
theorem limits_exact_of_checked (settings : Settings)
    (chunks : List { chunk : Bytes // chunk ≠ [] }) (fuel : Nat)
    (h : Reader.CheckedRun fuel (Reader.new settings (chunked chunks))) :
    LimitsExact settings (withoutBom settings.stripBom (inputOf chunks))
      (Reader.rows fuel (Reader.new settings (chunked chunks))) := by
  have hsound : (Reader.new settings (chunked chunks)).free.Sound :=
    ⟨Nat.zero_le _, fun delivery hmem => by
      obtain ⟨chunk, -, rfl⟩ := List.mem_map.mp hmem
      exact ⟨chunk.1, rfl, chunk.2⟩, by simp [Reader.new, Reader.free], rfl, rfl, rfl⟩
  have hremaining : (Reader.new settings (chunked chunks)).remaining = inputOf chunks :=
    delivered_chunked chunks
  cases fuel with
  | zero => trivial
  | succ fuel =>
    obtain ⟨hcall, hlater⟩ := h
    obtain ⟨hsettings, hbom, hrow, hnext⟩ := Reader.fresh_limits hsound rfl rfl hcall
    rw [hremaining] at hrow hnext
    rw [Reader.rows]
    cases hread : (Reader.new settings (chunked chunks)).readRow with
    | mk row after =>
      cases row with
      | none => trivial
      | some row =>
        rw [hread] at hlater hsettings hbom hrow hnext
        exact ⟨hrow row rfl,
          Reader.rows_limits fuel after settings _ hsettings hbom hnext hlater⟩

theorem limits_exact_of_quoted :
    let settings : Settings := ⟨⟨44, by decide⟩, false, true, some 5, some 1, some 2⟩
    let input : Bytes := [97, 44, 34, 98, 34, 10]
    let rows := Reader.rows 2 (Reader.new settings (chunked [⟨input, by decide⟩]))
    rows.map Row.fields = [[[97], [98]]] ∧ LimitsExact settings input rows := by
  intro settings input rows
  refine ⟨by decide, ?_⟩
  exact limits_exact_of_checked settings [⟨input, by decide⟩] 2 (by decide)

/-- A line break after an unquoted field ends the record before its size is looked at. -/
theorem limits_not_exact :
    let settings : Settings := ⟨⟨44, by decide⟩, false, true, some 3, none, none⟩
    let input : Bytes := [97, 98, 99, 100, 101, 102, 103, 104, 10]
    let rows := Reader.rows 2 (Reader.new settings (chunked [⟨input, by decide⟩]))
    rows = [⟨[[97, 98, 99, 100, 101, 102, 103, 104]], none, 1⟩] ∧
      ¬ LimitsExact settings input rows := by
  intro settings input rows
  have hrows : rows = [⟨[[97, 98, 99, 100, 101, 102, 103, 104]], none, 1⟩] := by decide
  refine ⟨hrows, ?_⟩
  rw [hrows]
  rintro ⟨⟨-, hrecord, -⟩, -⟩
  have hlong : ¬ (Reader.recordExtent settings input).1 ≤ 3 := by decide
  exact hlong (hrecord 3 rfl)

end Stdx.Csv
