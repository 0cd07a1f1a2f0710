import Stdx.Csv.Grammar

/-!
# The reader follows the grammar

Each round of the reader's loop, whatever the buffer holds when it begins, leaves the
outcome of the grammar on the remaining text unchanged, until the round that yields the
record.  The remaining text is what is left in the buffer, then what the source has still
to deliver; a line feed that a pending `\r` will swallow is not part of it.
-/

namespace Stdx.Csv

open Stdx.Foundation

def Row.record (row : Row) : Record := ⟨row.fields, row.error.map ReadError.kind⟩

/-- All the octets a source has still to deliver. -/
def delivered (source : List Delivery) : Bytes :=
  source.flatMap fun
    | .ok chunk => chunk
    | .error _ => []

namespace Reader

def remaining (r : Reader) : Bytes :=
  if r.pendingCr then afterBreak 13 (r.haystack ++ delivered r.source)
  else r.haystack ++ delivered r.source

def fields (r : Reader) : List Bytes := r.ranges.map r.resolve

/-- A reader without limits over a source that delivers non-empty chunks. -/
structure Sound (r : Reader) : Prop where
  start_le : r.start ≤ r.buf.length
  source_ok : ∀ delivery ∈ r.source, ∃ chunk, delivery = .ok chunk ∧ chunk ≠ []
  eof_source : r.eof = true → r.source = []
  no_record_limit : r.settings.maxRecordBytes = none
  no_field_limit : r.settings.maxFieldBytes = none
  no_column_limit : r.settings.maxColumns = none

/-- The ranges lie within what they point into. -/
def Bounded (r : Reader) : Prop :=
  ∀ range ∈ r.ranges,
    range.stop ≤ (match range.src with | .buf => r.buf.length | .scratch => r.scratch.length)

/-- Where in the grammar the state machine stands. -/
inductive Stands (r : Reader) : Phase → List Bytes → Prop
  | start (hstate : r.state = .startOfField) : Stands r .start r.fields
  | unquoted (hstate : r.state = .inUnquoted) (hstart : r.fieldStart ≤ r.start) :
      Stands r (.unquoted (slice r.buf r.fieldStart r.start)) r.fields
  | quoted (hstate : r.state = .inQuoted)
      (hstart : r.scratchFieldStart ≤ r.scratch.length) :
      Stands r (.quoted (r.scratch.drop r.scratchFieldStart)) r.fields
  | afterQuote {field : Bytes} {fields : List Bytes} (hstate : r.state = .afterQuote)
      (hfields : r.fields = fields ++ [field]) (hnext : r.remaining.head? ≠ some 34) :
      Stands r (.quoteSeen field) fields

structure Follows (r : Reader) (phase : Phase) (fields : List Bytes) : Prop where
  sound : r.Sound
  bounded : r.Bounded
  stands : r.Stands phase fields
  pending : r.pendingCr = true → phase = .start ∧ fields = []

structure SameFrame (r r' : Reader) : Prop where
  settings : r'.settings = r.settings
  numFields : r'.numFields = r.numFields
  bomChecked : r'.bomChecked = r.bomChecked

theorem SameFrame.refl (r : Reader) : SameFrame r r := ⟨rfl, rfl, rfl⟩

theorem SameFrame.trans {r₁ r₂ r₃ : Reader} (h₁ : SameFrame r₁ r₂) (h₂ : SameFrame r₂ r₃) :
    SameFrame r₁ r₃ :=
  ⟨h₂.settings.trans h₁.settings, h₂.numFields.trans h₁.numFields,
    h₂.bomChecked.trans h₁.bomChecked⟩

/-- Bounds the rounds the loop can still make. -/
def effort (r : Reader) : Nat := 2 * r.bytesLeft + r.pendingCr.toNat

/-- The call ends with what the grammar says, in front of the text it leaves. -/
structure Yields (r : Reader) (expected : Option Scanned) (row : Option Row)
    (r' : Reader) : Prop where
  sound : r'.Sound
  settings : r'.settings = r.settings
  bomChecked : r'.bomChecked = r.bomChecked
  row_eq : row.map Row.record =
    expected.map fun s => (admitted r.settings.flexible r.numFields s.fields s.error).1
  numFields : r'.numFields = expected.elim r.numFields fun s =>
    (admitted r.settings.flexible r.numFields s.fields s.error).2
  remaining : r'.remaining = expected.elim [] Scanned.rest

/-- A round keeps the outcome, or ends the call with it. -/
def Advances (r : Reader) (expected : Option Scanned) : Progress → Prop
  | .more r' => ∃ phase fields, r'.Follows phase fields ∧
      scan r.settings.delimiter.byte phase fields r'.remaining = expected ∧
      r'.effort < r.effort ∧ SameFrame r r'
  | .done row r' => r.Yields expected row r'

/-! ## Ranges -/

theorem bounded_push {r r' : Reader} {extra : List RawField} (h : r.Bounded)
    (hbuf : r.buf.length ≤ r'.buf.length) (hscratch : r.scratch.length ≤ r'.scratch.length)
    (hranges : r'.ranges = r.ranges ++ extra)
    (hextra : ∀ range ∈ extra, range.stop ≤
      (match range.src with | .buf => r'.buf.length | .scratch => r'.scratch.length)) :
    r'.Bounded := by
  intro range hmem
  rw [hranges, List.mem_append] at hmem
  rcases hmem with hold | hnew
  · have := h range hold
    cases hsrc : range.src <;> simp only [hsrc] at this ⊢ <;> omega
  · exact hextra range hnew

theorem fields_push {r r' : Reader} {extra : List RawField} (h : r.Bounded)
    (hbuf : r.buf <+: r'.buf) (hscratch : r.scratch <+: r'.scratch)
    (hranges : r'.ranges = r.ranges ++ extra) :
    r'.fields = r.fields ++ extra.map r'.resolve := by
  rw [fields, fields, hranges, List.map_append]
  congr 1
  refine List.map_congr_left fun range hmem => ?_
  have hstop := h range hmem
  obtain ⟨more, hmore⟩ := hbuf
  obtain ⟨extraScratch, hextra⟩ := hscratch
  cases hsrc : range.src with
  | buf =>
    simp only [hsrc] at hstop
    rw [resolve, resolve, hsrc, ← hmore, slice_append hstop]
  | scratch =>
    simp only [hsrc] at hstop
    rw [resolve, resolve, hsrc, ← hextra, slice_append hstop]

/-! ## Octets -/

theorem haystack_eq (r : Reader) : r.haystack = r.buf.drop r.start := rfl

theorem byteAt_start {r : Reader} {byte : UInt8} {rest : Bytes}
    (h : r.haystack = byte :: rest) : r.byteAt r.start = byte := by
  rw [byteAt, List.getD_eq_getElem?_getD, ← Nat.add_zero r.start, ← List.getElem?_drop]
  rw [← haystack_eq, h]
  rfl

theorem byteAt_offset {r : Reader} {seg rest : Bytes} {byte : UInt8}
    (h : r.haystack = seg ++ byte :: rest) : r.byteAt (r.start + seg.length) = byte := by
  rw [byteAt, List.getD_eq_getElem?_getD, ← List.getElem?_drop, ← haystack_eq, h]
  simp

theorem length_of_haystack {r : Reader} {seg rest : Bytes} (hle : r.start ≤ r.buf.length)
    (h : r.haystack = seg ++ rest) : r.buf.length = r.start + seg.length + rest.length := by
  have := congrArg List.length h
  rw [haystack, List.length_drop, List.length_append] at this
  omega

theorem drop_of_haystack {r : Reader} {seg rest : Bytes} (h : r.haystack = seg ++ rest) :
    r.buf.drop (r.start + seg.length) = rest := by
  rw [← List.drop_drop, ← haystack_eq, h, List.drop_left]

theorem remaining_of_not_pending {r : Reader} (h : r.pendingCr = false) :
    r.remaining = r.haystack ++ delivered r.source := by
  simp [remaining, h]

/-! ## Refills -/

def refill (r : Reader) (chunk : Bytes) (source : List Delivery) : Reader :=
  { r with source := source, buf := r.buf ++ chunk }

theorem fillBuf_end {r : Reader} (h : r.source = []) :
    r.fillBuf = (.ok false, { r with eof := true }) := by
  rw [fillBuf]
  split
  · next heof => simp [← heof]
  · rw [h]

theorem fillBuf_chunk {r : Reader} {chunk : Bytes} {source : List Delivery} (hr : r.Sound)
    (h : r.source = .ok chunk :: source) : r.fillBuf = (.ok true, r.refill chunk source) := by
  obtain ⟨chunk', hchunk, hne⟩ := hr.source_ok (.ok chunk) (by simp [h])
  obtain rfl : chunk = chunk' := by simpa using hchunk
  have heof : r.eof = false := by
    by_contra heof
    have := hr.eof_source (by simpa using heof)
    simp [h] at this
  simp [fillBuf, heof, h, hne, refill]

theorem source_cases {r : Reader} (hr : r.Sound) :
    r.source = [] ∨ ∃ chunk source, chunk ≠ [] ∧ r.source = .ok chunk :: source := by
  cases hsource : r.source with
  | nil => exact .inl rfl
  | cons delivery source =>
    obtain ⟨chunk, rfl, hne⟩ := hr.source_ok delivery (by simp [hsource])
    exact .inr ⟨chunk, source, hne, rfl⟩

section Refill

variable {r : Reader} {chunk : Bytes} {source : List Delivery}

theorem haystack_refill (hr : r.Sound) :
    (r.refill chunk source).haystack = r.haystack ++ chunk := by
  rw [haystack, haystack, refill, List.drop_append_of_le_length hr.start_le]

theorem remaining_refill (hr : r.Sound) (h : r.source = .ok chunk :: source) :
    (r.refill chunk source).remaining = r.remaining := by
  have hdelivered : delivered r.source = chunk ++ delivered source := by simp [delivered, h]
  rw [remaining, remaining, haystack_refill hr, hdelivered, List.append_assoc]
  rfl

theorem sound_refill (hr : r.Sound) (h : r.source = .ok chunk :: source) :
    (r.refill chunk source).Sound where
  start_le := hr.start_le.trans (by simp [refill])
  source_ok := fun delivery hmem => hr.source_ok delivery (by rw [h]; simpa using .inr hmem)
  eof_source := fun heof => by have := hr.eof_source heof; simp [h] at this
  no_record_limit := hr.no_record_limit
  no_field_limit := hr.no_field_limit
  no_column_limit := hr.no_column_limit

theorem bytesLeft_refill (hr : r.Sound) (h : r.source = .ok chunk :: source) :
    (r.refill chunk source).bytesLeft + 1 = r.bytesLeft := by
  have hle := hr.start_le
  simp only [bytesLeft, refill, h, List.map_cons, List.sum_cons, List.length_append]
  omega

theorem fields_refill (hb : r.Bounded) : (r.refill chunk source).fields = r.fields := by
  have := @fields_push r (r.refill chunk source) [] hb (List.prefix_append _ _)
    (List.prefix_refl _) (by simp [refill])
  simpa using this

theorem follows_refill {phase : Phase} {fields : List Bytes} (hr : r.Follows phase fields)
    (h : r.source = .ok chunk :: source) : (r.refill chunk source).Follows phase fields where
  sound := sound_refill hr.sound h
  bounded := bounded_push hr.bounded (by simp [refill]) (by simp [refill])
    (List.append_nil _).symm (by simp)
  pending := hr.pending
  stands := by
    have hfields := @fields_refill r chunk source hr.bounded
    cases hr.stands with
    | start hstate =>
      rw [← hfields]
      exact .start hstate
    | unquoted hstate hstart =>
      have hslice := @slice_append _ r.buf chunk r.fieldStart r.start hr.sound.start_le
      rw [← hfields, ← hslice]
      exact .unquoted hstate hstart
    | quoted hstate hstart =>
      rw [← hfields]
      exact .quoted hstate hstart
    | afterQuote hstate hlast hnext =>
      exact .afterQuote hstate (hfields.trans hlast) (by rwa [remaining_refill hr.sound h])

end Refill

/-! ## Line breaks and rows -/

/-- A reader that differs in nothing but its place in the text. -/
structure SameRecord (r r' : Reader) : Prop where
  buf : r'.buf = r.buf
  scratch : r'.scratch = r.scratch
  ranges : r'.ranges = r.ranges
  state : r'.state = r.state
  source : r'.source = r.source
  eof : r'.eof = r.eof
  frame : SameFrame r r'

theorem SameRecord.fields {r r' : Reader} (h : SameRecord r r') : r'.fields = r.fields := by
  rw [Reader.fields, Reader.fields, h.ranges]
  refine List.map_congr_left fun range _ => ?_
  rw [resolve, resolve, h.buf, h.scratch]

theorem SameRecord.sound {r r' : Reader} (h : SameRecord r r') (hr : r.Sound)
    (hstart : r'.start ≤ r'.buf.length) : r'.Sound where
  start_le := hstart
  source_ok := by rw [h.source]; exact hr.source_ok
  eof_source := by rw [h.source, h.eof]; exact hr.eof_source
  no_record_limit := by rw [h.frame.settings]; exact hr.no_record_limit
  no_field_limit := by rw [h.frame.settings]; exact hr.no_field_limit
  no_column_limit := by rw [h.frame.settings]; exact hr.no_column_limit

theorem sameRecord_consumeNewline (r : Reader) : SameRecord r r.consumeNewline := by
  rw [consumeNewline, consumeLf, consumeCr]
  split_ifs <;> exact ⟨rfl, rfl, rfl, rfl, rfl, rfl, rfl, rfl, rfl⟩

theorem bytesLeft_of_same {r r' : Reader} (hsource : r'.source = r.source)
    (hbuf : r'.buf = r.buf) (hle : r.start ≤ r'.start) :
    r'.bytesLeft + (min r'.start r.buf.length - r.start) = r.bytesLeft := by
  rw [bytesLeft, bytesLeft, hsource, hbuf]
  omega

/-- `consume_newline` stops behind the line break, or leaves a `\n` to be swallowed. -/
theorem consumeNewline_spec {r : Reader} {byte : UInt8} {rest : Bytes}
    (hpending : r.pendingCr = false) (h : r.haystack = byte :: rest)
    (hle : r.start ≤ r.buf.length) (hbyte : isNewline byte = true) :
    r.consumeNewline.remaining = afterBreak byte (rest ++ delivered r.source) ∧
      r.start < r.consumeNewline.start ∧ r.consumeNewline.start ≤ r.buf.length := by
  have hlen : r.buf.length = r.start + 1 + rest.length :=
    @length_of_haystack r [byte] rest hle h
  have hdrop : r.buf.drop (r.start + 1) = rest := @drop_of_haystack r [byte] rest h
  have hfirst := byteAt_start h
  have hbyte' : byte = 10 ∨ byte = 13 := by simpa [isNewline] using hbyte
  rcases hbyte' with rfl | rfl
  · have hlf : r.consumeNewline = { r with start := r.start + 1, line := r.line + 1 } := by
      simp [consumeNewline, consumeLf, consumeCr, hfirst,
        show r.start < r.buf.length by omega]
    simp only [hlf, remaining, hpending, haystack, hdrop, afterBreak_lf]
    exact ⟨rfl, by omega, by omega⟩
  · cases rest with
    | nil =>
      have hend : r.buf.length = r.start + 1 := by simpa using hlen
      have hcr : r.consumeNewline =
          { r with start := r.start + 1, pendingCr := true, line := r.line + 1 } := by
        simp [consumeNewline, consumeLf, consumeCr, hfirst, hend]
      simp only [hcr, remaining, haystack, hdrop]
      exact ⟨rfl, by omega, by omega⟩
    | cons next rest =>
      rw [List.length_cons] at hlen
      have hcr : r.consumeCr = { r with start := r.start + 1 } := by
        simp [consumeCr, hfirst, hpending, show r.start < r.buf.length by omega,
          show ¬r.buf.length ≤ r.start + 1 by omega]
      have hsecond : byteAt { r with start := r.start + 1 } (r.start + 1) = next :=
        @byteAt_offset r [13] rest next h
      by_cases hnext : next = 10
      · have hcrlf : r.consumeNewline =
            { r with start := r.start + 1 + 1, line := r.line + 1 } := by
          rw [consumeNewline, hcr, consumeLf, if_pos ⟨by simp only; omega, by
            simpa using hsecond.trans hnext⟩]
        have hdrop' : r.buf.drop (r.start + 1 + 1) = rest := by
          rw [← List.drop_drop, hdrop]
          rfl
        simp only [hcrlf, remaining, hpending, haystack, hdrop', hnext]
        exact ⟨by simp [afterBreak], by omega, by omega⟩
      · have hbare : r.consumeNewline =
            { r with start := r.start + 1, line := r.line + 1 } := by
          rw [consumeNewline, hcr, consumeLf, if_neg fun hlf => hnext (by
            simpa [hsecond] using hlf.2)]
        simp only [hbare, remaining, hpending, haystack, hdrop]
        exact ⟨by simp [afterBreak, hnext], by omega, by omega⟩

theorem buildRow_record (r : Reader) (error : Option ReadError) :
    ((r.buildRow error).1.record, (r.buildRow error).2.numFields) =
      admitted r.settings.flexible r.numFields r.fields (error.map ReadError.kind) := by
  cases error with
  | some error =>
    simp [buildRow, admitted, Row.record, fields]
  | none =>
    cases hnum : r.numFields with
    | none => simp [buildRow, admitted, Row.record, fields, hnum]
    | some expected =>
      cases hflex : r.settings.flexible with
      | true => simp [buildRow, admitted, Row.record, fields, hnum, hflex]
      | false =>
        by_cases hcount : r.ranges.length = expected <;>
          simp [buildRow, admitted, Row.record, fields, hnum, hflex, hcount]

theorem advances_row {r r' : Reader} {error : Option ReadError} {s : Scanned}
    (hsound : r'.Sound) (hframe : SameFrame r r') (hfields : r'.fields = s.fields)
    (herror : error.map ReadError.kind = s.error) (hrest : r'.remaining = s.rest) :
    r.Advances (some s) (.row (r'.buildRow error)) := by
  have hadmitted := buildRow_record r' error
  rw [hframe.settings, hframe.numFields, hfields, herror] at hadmitted
  exact {
    sound := ⟨hsound.start_le, hsound.source_ok, hsound.eof_source, hsound.no_record_limit,
      hsound.no_field_limit, hsound.no_column_limit⟩
    settings := hframe.settings
    bomChecked := hframe.bomChecked
    row_eq := congrArg some (congrArg Prod.fst hadmitted)
    numFields := congrArg Prod.snd hadmitted
    remaining := hrest }

/-! ## Rounds

One lemma for each state, in a round that has an octet to look at. -/

section Rounds

variable {r : Reader} {byte : UInt8} {rest : Bytes}

theorem effort_lt {r r' : Reader} (hsource : r'.source = r.source) (hbuf : r'.buf = r.buf)
    (hlt : r.start < r'.start) (hle : r'.start ≤ r.buf.length)
    (hpending : r.pendingCr = false) : r'.effort < r.effort := by
  have hleft := bytesLeft_of_same hsource hbuf hlt.le
  have hflag : r'.pendingCr.toNat ≤ 1 := Bool.toNat_le r'.pendingCr
  rw [effort, effort, hpending]
  simp only [Bool.toNat_false]
  omega

theorem advances_more {r r' : Reader} {extra : List RawField} {phase : Phase}
    {fields : List Bytes} {expected : Option Scanned} (hr : r.Sound) (hb : r.Bounded)
    (hpending : r.pendingCr = false) (hpending' : r'.pendingCr = false)
    (hsource : r'.source = r.source) (hbuf : r'.buf = r.buf)
    (heof : r'.eof = true → r.source = [])
    (hscratch : r.scratch <+: r'.scratch) (hranges : r'.ranges = r.ranges ++ extra)
    (hextra : ∀ range ∈ extra, range.stop ≤
      (match range.src with | .buf => r'.buf.length | .scratch => r'.scratch.length))
    (hlt : r.start < r'.start) (hle : r'.start ≤ r.buf.length) (hframe : SameFrame r r')
    (hstands : r'.Stands phase fields)
    (hscan : scan r.settings.delimiter.byte phase fields
      (r.buf.drop r'.start ++ delivered r.source) = expected) :
    r.Advances expected (.more r') := by
  refine ⟨phase, fields, ⟨⟨?_, ?_, ?_, ?_, ?_, ?_⟩, ?_, hstands, ?_⟩, ?_,
    effort_lt hsource hbuf hlt hle hpending, hframe⟩
  · rwa [hbuf]
  · rw [hsource]
    exact hr.source_ok
  · rw [hsource]
    exact heof
  · rw [hframe.settings]
    exact hr.no_record_limit
  · rw [hframe.settings]
    exact hr.no_field_limit
  · rw [hframe.settings]
    exact hr.no_column_limit
  · exact bounded_push hb (by rw [hbuf]) hscratch.length_le hranges hextra
  · simp [hpending']
  · rw [remaining_of_not_pending hpending', haystack, hsource, hbuf]
    exact hscan

theorem advances_newline {s : Scanned} {r' : Reader} (hsound : r'.Sound)
    (hframe : SameFrame r r') (hpending : r'.pendingCr = false)
    (hnow : r'.haystack = byte :: rest) (hbyte : isNewline byte = true)
    (hfields : r'.fields = s.fields) (herror : s.error = none)
    (hrest : s.rest = afterBreak byte (rest ++ delivered r'.source)) :
    r.Advances (some s) (.row (r'.consumeNewline.buildRow none)) := by
  have hsame := sameRecord_consumeNewline r'
  obtain ⟨hremaining, -, hle⟩ := consumeNewline_spec hpending hnow hsound.start_le hbyte
  exact advances_row (hsame.sound hsound (by rw [hsame.buf]; exact hle))
    (hframe.trans hsame.frame) (hsame.fields.trans hfields) herror.symm
    (hremaining.trans hrest.symm)

theorem advances_startOfField (hr : r.Follows .start r.fields)
    (hstate : r.state = .startOfField) (hpending : r.pendingCr = false)
    (hnow : r.haystack = byte :: rest) :
    r.Advances (scan r.settings.delimiter.byte .start r.fields r.remaining)
      r.stepStartOfField := by
  have hremaining : r.remaining = byte :: (rest ++ delivered r.source) := by
    rw [remaining_of_not_pending hpending, hnow, List.cons_append]
  have hlen : r.buf.length = r.start + 1 + rest.length :=
    @length_of_haystack r [byte] rest hr.sound.start_le hnow
  have hdrop : r.buf.drop (r.start + 1) = rest := @drop_of_haystack r [byte] rest hnow
  have hnil : r.ranges = [] ↔ r.fields = [] := by simp [fields]
  have hbytes : r.byteAt r.start = byte := byteAt_start hnow
  rw [stepStartOfField, hremaining, scan, hbytes]
  simp only
  by_cases hbyte : isNewline byte = true
  · rw [if_pos hbyte, if_pos hbyte]
    by_cases hempty : r.ranges = []
    · rw [if_pos hempty, if_pos (hnil.mp hempty)]
      have hsame := sameRecord_consumeNewline r
      obtain ⟨hafter, hlt, hle⟩ := consumeNewline_spec hpending hnow hr.sound.start_le hbyte
      have hnone : r.consumeNewline.fields = [] := hsame.fields.trans (hnil.mp hempty)
      refine ⟨.start, [], ⟨hsame.sound hr.sound (by rwa [hsame.buf]), ?_, ?_, fun _ =>
        ⟨rfl, rfl⟩⟩, ?_, effort_lt hsame.source hsame.buf hlt hle hpending, hsame.frame⟩
      · intro range hmem
        rw [hsame.ranges, hempty] at hmem
        cases hmem
      · rw [← hnone]
        exact .start (hsame.state.trans hstate)
      · rw [hafter, scan_start_afterBreak]
    · rw [if_neg hempty, if_neg (mt hnil.mpr hempty)]
      refine advances_newline ?_ ⟨rfl, rfl, rfl⟩ hpending hnow hbyte ?_ rfl rfl
      · exact ⟨hr.sound.1, hr.sound.2, hr.sound.3, hr.sound.4, hr.sound.5, hr.sound.6⟩
      · have := @fields_push r (r.pushRange r.start r.start .buf) [⟨r.start, r.start, .buf⟩]
          hr.bounded (List.prefix_refl _) (List.prefix_refl _) rfl
        simpa [resolve] using this
  · rw [if_neg hbyte, if_neg hbyte]
    have hsame := List.prefix_refl r.scratch
    split_ifs with hdelimiter hquote
    · refine @advances_more r _ [⟨r.start, r.start, .buf⟩] .start (r.fields ++ [[]]) _ hr.sound
        hr.bounded hpending hpending rfl rfl hr.sound.eof_source hsame rfl ?_ (Nat.lt_succ_self _)
        (by simp only; omega) ⟨rfl, rfl, rfl⟩ ?_ (by rw [hdrop])
      · intro range hmem
        obtain rfl := List.mem_singleton.mp hmem
        exact hr.sound.start_le
      · have hpush : (r.pushRange r.start r.start .buf).fields = r.fields ++ [[]] := by
          simpa [resolve] using @fields_push r (r.pushRange r.start r.start .buf)
            [⟨r.start, r.start, .buf⟩] hr.bounded (List.prefix_refl _) hsame rfl
        rw [← hpush]
        exact .start hstate
    · refine @advances_more r _ [] (.quoted []) r.fields _ hr.sound hr.bounded hpending hpending
        rfl rfl hr.sound.eof_source hsame (List.append_nil _).symm (by simp) (Nat.lt_succ_self _)
        (by simp only; omega) ⟨rfl, rfl, rfl⟩ ?_ (by rw [hdrop])
      have hnone : r.scratch.drop r.scratch.length = [] := List.drop_length
      rw [← hnone]
      exact @Stands.quoted { r with
        fieldStart := r.start, scratchFieldStart := r.scratch.length, start := r.start + 1,
        state := .inQuoted } rfl le_rfl
    · refine @advances_more r _ [] (.unquoted [byte]) r.fields _ hr.sound hr.bounded hpending
        hpending rfl rfl hr.sound.eof_source hsame (List.append_nil _).symm (by simp)
        (Nat.lt_succ_self _)
        (by simp only; omega) ⟨rfl, rfl, rfl⟩ ?_ (by rw [hdrop])
      have hone : slice r.buf r.start (r.start + 1) = [byte] :=
        (@slice_extend _ r.buf [byte] rest _ _ le_rfl hnow).trans (by simp)
      rw [← hone]
      exact @Stands.unquoted { r with
        fieldStart := r.start, start := r.start + 1, state := .inUnquoted } rfl
        (Nat.le_succ _)

theorem advances_inUnquoted (hr : r.Follows (.unquoted (slice r.buf r.fieldStart r.start)) r.fields)
    (hstart : r.fieldStart ≤ r.start) (hstate : r.state = .inUnquoted)
    (hnow : r.haystack = byte :: rest) (hpending : r.pendingCr = false) :
    r.Advances (scan r.settings.delimiter.byte (.unquoted (slice r.buf r.fieldStart r.start))
      r.fields r.remaining) r.stepInUnquoted := by
  have hlimit (len : Nat) : r.fieldLimitExceeded len = none := by
    simp [fieldLimitExceeded, hr.sound.no_field_limit]
  rw [stepInUnquoted, remaining_of_not_pending hpending]
  simp only
  split
  · next hfound =>
    obtain ⟨seg, hit, tail, hsplit, hoffset, hseg, hhit⟩ := findIdx_split hfound
    have hlen := length_of_haystack hr.sound.start_le hsplit
    have hdrop := drop_of_haystack hsplit
    have hpos : r.byteAt (r.start + seg.length) = hit := byteAt_offset hsplit
    have hslice : slice r.buf r.fieldStart (r.start + seg.length) =
        slice r.buf r.fieldStart r.start ++ seg := slice_extend hstart hsplit
    have hpush (r' : Reader) (hbuf : r'.buf = r.buf) (hscratch : r'.scratch = r.scratch)
        (hranges : r'.ranges = r.ranges ++ [⟨r.fieldStart, r.start + seg.length, .buf⟩]) :
        r'.fields = r.fields ++ [slice r.buf r.fieldStart r.start ++ seg] := by
      rw [fields_push hr.bounded (by rw [hbuf]) (by rw [hscratch]) hranges]
      simp [resolve, hbuf, hslice]
    rw [hoffset, hlimit, hsplit, List.append_assoc, scan_unquoted _ _ _ hseg,
      List.cons_append, scan]
    simp only
    have hbyteAt : (r.pushRange r.fieldStart (r.start + seg.length) .buf).byteAt
        (r.start + seg.length) = hit := hpos
    rw [hbyteAt]
    rw [List.length_cons] at hlen
    by_cases hdelimiter : hit = r.settings.delimiter.byte
    · rw [if_pos hdelimiter, if_pos hdelimiter]
      refine @advances_more r _ [⟨r.fieldStart, r.start + seg.length, .buf⟩] .start
        (r.fields ++ [slice r.buf r.fieldStart r.start ++ seg]) _ hr.sound hr.bounded
        hpending hpending rfl rfl hr.sound.eof_source (List.prefix_refl _) rfl ?_
        (by simp only; omega)
        (by simp only; omega) ⟨rfl, rfl, rfl⟩ ?_ ?_
      · intro range hmem
        obtain rfl := List.mem_singleton.mp hmem
        simp only [pushRange]
        omega
      · rw [← hpush { r.pushRange r.fieldStart (r.start + seg.length) .buf with
          start := r.start + seg.length + 1, state := .startOfField } rfl rfl rfl]
        exact .start rfl
      · rw [← List.drop_drop, hdrop]
        rfl
    · have hnewline : isNewline hit = true := by
        simpa [hdelimiter] using hhit
      rw [if_neg hdelimiter, if_neg hdelimiter, if_pos hnewline]
      refine advances_newline ⟨?_, hr.sound.2, hr.sound.3, hr.sound.4, hr.sound.5,
        hr.sound.6⟩ ⟨rfl, rfl, rfl⟩ hpending hdrop hnewline (hpush _ rfl rfl rfl) rfl rfl
      simp only [pushRange]
      omega
  · next hmiss =>
    have hall := findIdx_miss hmiss
    have hend : r.buf.length = r.start + r.haystack.length := by
      rw [haystack, List.length_drop]
      have := hr.sound.start_le
      omega
    have hslice : slice r.buf r.fieldStart (r.start + r.haystack.length) =
        slice r.buf r.fieldStart r.start ++ r.haystack :=
      slice_extend hstart (List.append_nil _).symm
    rw [scan_unquoted _ _ _ hall]
    have hnolimit : fieldLimitExceeded { r with start := r.buf.length }
        (r.buf.length - r.fieldStart) = none := hlimit _
    rw [hnolimit]
    refine @advances_more r _ [] (.unquoted (slice r.buf r.fieldStart r.start ++ r.haystack))
      r.fields _ hr.sound hr.bounded hpending hpending rfl rfl hr.sound.eof_source
      (List.prefix_refl _)
      (List.append_nil _).symm (by simp) ?_ le_rfl ⟨rfl, rfl, rfl⟩ ?_ ?_
    · rw [hnow, List.length_cons] at hend
      simp only
      omega
    · rw [← hslice, ← hend]
      exact @Stands.unquoted { r with start := r.buf.length } hstate
        (hstart.trans hr.sound.start_le)
    · simp

theorem Advances.of_refill {chunk : Bytes} {source : List Delivery}
    {expected : Option Scanned} {progress : Progress} (hr : r.Sound)
    (hsource : r.source = .ok chunk :: source)
    (h : (r.refill chunk source).Advances expected progress) :
    r.Advances expected progress := by
  cases progress with
  | done row r' => exact ⟨h.1, h.2, h.3, h.4, h.5, h.6⟩
  | more r' =>
    obtain ⟨phase, fields, hfollows, hscan, heffort, hframe⟩ := h
    have hleft := bytesLeft_refill hr hsource
    have hless : (r.refill chunk source).effort < r.effort := by
      rw [effort, effort, ← hleft]
      simp only [refill]
      omega
    exact ⟨phase, fields, hfollows, hscan, heffort.trans hless, hframe.1, hframe.2, hframe.3⟩

section Quoted

variable {seg tail : Bytes}

theorem scan_to_quote (hpending : r.pendingCr = false)
    (hstart : r.scratchFieldStart ≤ r.scratch.length)
    (hsplit : r.haystack = seg ++ 34 :: tail) (hseg : ∀ byte ∈ seg, (byte == 34) = false) :
    scan r.settings.delimiter.byte (.quoted (r.scratch.drop r.scratchFieldStart)) r.fields
        r.remaining =
      scan r.settings.delimiter.byte
        (.quoteSeen ((r.scratch ++ seg).drop r.scratchFieldStart)) r.fields
        (tail ++ delivered r.source) := by
  rw [remaining_of_not_pending hpending, hsplit, List.append_assoc, scan_quoted _ _ _ hseg,
    List.cons_append, scan, if_pos rfl, List.drop_append_of_le_length hstart]

theorem advances_closeQuote {eof : Bool} (hr : r.Sound) (hb : r.Bounded)
    (hpending : r.pendingCr = false) (hstart : r.scratchFieldStart ≤ r.scratch.length)
    (hsplit : r.haystack = seg ++ 34 :: tail) (hseg : ∀ byte ∈ seg, (byte == 34) = false)
    (hnext : (tail ++ delivered r.source).head? ≠ some 34)
    (heof : eof = true → r.source = []) :
    r.Advances (scan r.settings.delimiter.byte
        (.quoted (r.scratch.drop r.scratchFieldStart)) r.fields r.remaining)
      (.more ({ r.takeSegment seg with eof := eof }.closeQuote (r.start + seg.length + 1))) := by
  have hlen := length_of_haystack hr.start_le hsplit
  have hdrop : r.buf.drop (r.start + seg.length + 1) = tail := by
    rw [← List.drop_drop, drop_of_haystack hsplit]
    rfl
  rw [List.length_cons] at hlen
  rw [scan_to_quote hpending hstart hsplit hseg]
  have hfield : slice (r.scratch ++ seg) r.scratchFieldStart (r.scratch ++ seg).length =
      (r.scratch ++ seg).drop r.scratchFieldStart := slice_length _ _
  refine @advances_more r _ [⟨r.scratchFieldStart, (r.scratch ++ seg).length, .scratch⟩]
    (.quoteSeen ((r.scratch ++ seg).drop r.scratchFieldStart)) r.fields _ hr hb hpending
    hpending rfl rfl heof (List.prefix_append _ _) rfl ?_ ?_ ?_ ⟨rfl, rfl, rfl⟩ ?_ ?_
  · intro range hmem
    obtain rfl := List.mem_singleton.mp hmem
    exact le_rfl
  · simp only [closeQuote]
    omega
  · simp only [closeQuote]
    omega
  · refine .afterQuote rfl ?_ ?_
    · rw [fields_push hb (by exact List.prefix_refl _) (by exact List.prefix_append _ _)
        (by rfl), ← hfield]
      rfl
    · rw [remaining_of_not_pending (by exact hpending), haystack]
      simp only [closeQuote, pushRange, takeSegment, hdrop]
      exact hnext
  · simp only [closeQuote, hdrop]

theorem advances_escapeQuote (hr : r.Sound) (hb : r.Bounded) (hstate : r.state = .inQuoted)
    (hpending : r.pendingCr = false) (hstart : r.scratchFieldStart ≤ r.scratch.length)
    (hsplit : r.haystack = seg ++ 34 :: 34 :: tail)
    (hseg : ∀ byte ∈ seg, (byte == 34) = false) :
    r.Advances (scan r.settings.delimiter.byte
        (.quoted (r.scratch.drop r.scratchFieldStart)) r.fields r.remaining)
      (.more ((r.takeSegment seg).escapeQuote (r.start + seg.length + 1))) := by
  have hlen := length_of_haystack hr.start_le hsplit
  have hdrop : r.buf.drop (r.start + seg.length + 1 + 1) = tail := by
    rw [← List.drop_drop, ← List.drop_drop, drop_of_haystack hsplit]
    rfl
  simp only [List.length_cons] at hlen
  rw [scan_to_quote hpending hstart hsplit hseg, List.cons_append, scan, if_pos rfl]
  have hfields := @fields_push r ((r.takeSegment seg).escapeQuote (r.start + seg.length + 1)) []
    hb (List.prefix_refl _) (by simp [escapeQuote, takeSegment]) (List.append_nil _).symm
  have hcontent : ((r.takeSegment seg).escapeQuote (r.start + seg.length + 1)).scratch.drop
      r.scratchFieldStart = (r.scratch ++ seg).drop r.scratchFieldStart ++ [34] := by
    simp only [escapeQuote, takeSegment]
    rw [List.drop_append_of_le_length (by rw [List.length_append]; omega)]
  refine @advances_more r _ []
    (.quoted ((r.scratch ++ seg).drop r.scratchFieldStart ++ [34])) r.fields _ hr hb hpending
    hpending rfl rfl hr.eof_source (by simp [escapeQuote, takeSegment])
    (List.append_nil _).symm (by simp) ?_ ?_ ⟨rfl, rfl, rfl⟩ ?_ ?_
  · simp only [escapeQuote]
    omega
  · simp only [escapeQuote]
    omega
  · rw [← hcontent, ← (hfields.trans (List.append_nil _))]
    exact .quoted hstate (by simp only [escapeQuote, takeSegment, List.length_append]; omega)
  · simp only [escapeQuote, hdrop]

/-- The octet behind the quote is in the next chunk, or there is none. -/
theorem advances_lastQuote
    (hr : r.Follows (.quoted (r.scratch.drop r.scratchFieldStart)) r.fields)
    (hstate : r.state = .inQuoted) (hstart : r.scratchFieldStart ≤ r.scratch.length)
    (hpending : r.pendingCr = false) (hsplit : r.haystack = seg ++ [34])
    (hseg : ∀ byte ∈ seg, (byte == 34) = false) :
    r.Advances (scan r.settings.delimiter.byte
        (.quoted (r.scratch.drop r.scratchFieldStart)) r.fields r.remaining)
      ((r.takeSegment seg).stepLastQuote (r.start + seg.length + 1)) := by
  rw [stepLastQuote]
  rcases source_cases hr.sound with hend | ⟨chunk, source, hne, hsource⟩
  · rw [fillBuf_end (by exact hend)]
    simp only [Bool.false_eq_true, false_and, if_false]
    exact advances_closeQuote hr.sound hr.bounded hpending hstart hsplit hseg
      (by simp [hend, delivered]) fun _ => hend
  · have hsound := sound_refill hr.sound hsource
    have hsound' : (r.takeSegment seg).Sound :=
      ⟨hr.sound.1, hr.sound.2, hr.sound.3, hr.sound.4, hr.sound.5, hr.sound.6⟩
    have hbounded := (follows_refill hr hsource).bounded
    have hlen := length_of_haystack hr.sound.start_le hsplit
    obtain ⟨next, chunk, rfl⟩ := List.exists_cons_of_ne_nil hne
    have hsplit' : (r.refill (next :: chunk) source).haystack = seg ++ 34 :: next :: chunk := by
      rw [haystack_refill hr.sound, hsplit]
      simp
    have hget : ((r.takeSegment seg).refill (next :: chunk) source).buf[
        r.start + seg.length + 1]? = some next := by
      simp only [refill, takeSegment]
      simp only [List.length_singleton] at hlen
      rw [List.getElem?_append_right (by omega), show
        r.start + seg.length + 1 - r.buf.length = 0 by omega]
      rfl
    have hcommute : (r.takeSegment seg).refill (next :: chunk) source =
        (r.refill (next :: chunk) source).takeSegment seg := rfl
    refine Advances.of_refill hr.sound hsource ?_
    rw [fillBuf_chunk hsound' hsource]
    simp only [hget]
    rw [← remaining_refill hr.sound hsource, ← @fields_refill r (next :: chunk) source hr.bounded,
      hcommute]
    by_cases hquote : next = 34
    · subst hquote
      rw [if_pos ⟨trivial, rfl⟩]
      exact advances_escapeQuote hsound hbounded hstate hpending hstart hsplit' hseg
    · rw [if_neg fun h => hquote (Option.some.inj h.2)]
      exact @advances_closeQuote (r.refill (next :: chunk) source) _ _ r.eof hsound hbounded
        hpending hstart hsplit' hseg (by simpa using hquote) hsound.eof_source

theorem advances_inQuoted
    (hr : r.Follows (.quoted (r.scratch.drop r.scratchFieldStart)) r.fields)
    (hstate : r.state = .inQuoted) (hstart : r.scratchFieldStart ≤ r.scratch.length)
    (hpending : r.pendingCr = false) (hnow : r.haystack = byte :: rest) :
    r.Advances (scan r.settings.delimiter.byte
      (.quoted (r.scratch.drop r.scratchFieldStart)) r.fields r.remaining) r.stepInQuoted := by
  have hlimit (len : Nat) : r.fieldLimitExceeded len = none := by
    simp [fieldLimitExceeded, hr.sound.no_field_limit]
  rw [stepInQuoted]
  simp only
  split
  · next hfound =>
    obtain ⟨seg, hit, tail, hsplit, hoffset, hseg, hhit⟩ := findIdx_split hfound
    obtain rfl : hit = 34 := by simpa using hhit
    have hlen := length_of_haystack hr.sound.start_le hsplit
    have htake : r.haystack.take seg.length = seg := by rw [hsplit, List.take_left]
    have hstart' : (r.takeSegment seg).start = r.start := rfl
    have hbuf' : (r.takeSegment seg).buf = r.buf := rfl
    rw [hoffset, htake, hlimit]
    simp only [hstart', hbuf']
    cases tail with
    | nil =>
      rw [if_neg (by simp only [List.length_singleton] at hlen; omega)]
      exact advances_lastQuote hr hstate hstart hpending hsplit hseg
    | cons next tail =>
      have hbyte : (r.takeSegment seg).byteAt (r.start + seg.length + 1) = next := by
        have := @byteAt_offset r (seg ++ [34]) tail next (by simp [hsplit])
        rwa [List.length_append, ← Nat.add_assoc] at this
      rw [if_pos (by simp only [List.length_cons] at hlen; omega), hbyte]
      split
      · next hquote =>
        rw [hquote] at hsplit
        exact advances_escapeQuote hr.sound hr.bounded hstate hpending hstart hsplit hseg
      · next hquote =>
        exact @advances_closeQuote r _ _ r.eof hr.sound hr.bounded hpending hstart hsplit
          hseg (by simpa using hquote) hr.sound.eof_source
  · next hmiss =>
    have hle := hr.sound.start_le
    have hend : r.buf.length = r.start + r.haystack.length := by
      rw [haystack, List.length_drop]
      omega
    rw [hnow, List.length_cons] at hend
    rw [remaining_of_not_pending hpending, scan_quoted _ _ _ (findIdx_miss hmiss)]
    split
    · next hexceeded => simp [fieldLimitExceeded, hr.sound.no_field_limit] at hexceeded
    · refine @advances_more r _ []
        (.quoted (r.scratch.drop r.scratchFieldStart ++ r.haystack)) r.fields _ hr.sound
        hr.bounded hpending hpending rfl rfl hr.sound.eof_source (List.prefix_append _ _)
        (List.append_nil _).symm (by simp) (by simp only; omega) le_rfl ⟨rfl, rfl, rfl⟩ ?_
        (by simp)
      rw [← List.drop_append_of_le_length hstart]
      have hfields := @fields_push r { r with
        line := r.line + (countLineBreaks r.haystack r.pendingLfQuoted).1
        pendingLfQuoted := (countLineBreaks r.haystack r.pendingLfQuoted).2
        scratch := r.scratch ++ r.haystack
        start := r.buf.length } [] hr.bounded (List.prefix_refl _) (List.prefix_append _ _)
        (List.append_nil _).symm
      rw [← (hfields.trans (List.append_nil _))]
      exact .quoted hstate (by simp only [List.length_append]; omega)

end Quoted

/-- The reader behind the junk, in front of the next record or at the end. -/
structure Skips (r : Reader) (out : Bool × Reader) : Prop where
  sound : out.2.Sound
  at_end : out.1 = false → out.2.source = []
  remaining : out.2.remaining = skipLine r.remaining
  fields : out.2.fields = r.fields
  frame : SameFrame r out.2

theorem skips_buffered {fuel : Nat} (hr : r.Sound) (hb : r.Bounded)
    (hpending : r.pendingCr = false) (hnow : r.haystack = byte :: rest)
    (ih : ∀ r : Reader, r.Sound → r.Bounded → r.pendingCr = false → r.bytesLeft < fuel →
      Skips r (skipRecordTail fuel r)) (hfuel : r.bytesLeft < fuel + 1) :
    Skips r (match r.skipBuffered with
      | (some found, r) => (found, r)
      | (none, r) => skipRecordTail fuel r) := by
  have hpending' : ¬r.pendingCr = true := by simp [hpending]
  rw [skipBuffered, if_neg hpending']
  by_cases hfound : r.haystack.findIdx isNewline < r.haystack.length
  · simp only [hfound, if_true]
    obtain ⟨seg, hit, tail, hsplit, hoffset, hseg, hhit⟩ := findIdx_split hfound
    rw [hoffset]
    have hlen := length_of_haystack hr.start_le hsplit
    have hdrop := drop_of_haystack hsplit
    let here : Reader := { r with start := r.start + seg.length }
    have hle : here.start ≤ here.buf.length := by simp only [here]; omega
    have hsound : here.Sound := ⟨hle, hr.2, hr.3, hr.4, hr.5, hr.6⟩
    obtain ⟨hremaining, -, hstop⟩ := @consumeNewline_spec here hit tail hpending hdrop hle hhit
    have hsame := sameRecord_consumeNewline here
    refine ⟨hsame.sound hsound (by rwa [hsame.buf]), by simp, ?_, hsame.fields,
      (⟨rfl, rfl, rfl⟩ : SameFrame r here).trans hsame.frame⟩
    rw [hremaining, remaining_of_not_pending hpending, hsplit, List.append_assoc,
      skipLine_append _ hseg, List.cons_append, skipLine, if_pos hhit]
  · simp only [hfound, if_false, hr.no_record_limit]
    have hle := hr.start_le
    have hend : r.buf.length = r.start + (rest.length + 1) := by
      have := congrArg List.length hnow
      rw [haystack, List.length_drop, List.length_cons] at this
      omega
    have hleft : bytesLeft { r with start := r.buf.length } < r.bytesLeft := by
      simp only [bytesLeft]
      omega
    have hskip := ih { r with start := r.buf.length } ⟨le_rfl, hr.2, hr.3, hr.4, hr.5, hr.6⟩ hb
      hpending (by omega)
    refine ⟨hskip.sound, hskip.at_end, ?_, hskip.fields, hskip.frame.1, hskip.frame.2,
      hskip.frame.3⟩
    rw [hskip.remaining, remaining_of_not_pending hpending, skipLine_append _ (findIdx_miss hfound),
      remaining_of_not_pending (by exact hpending)]
    simp [haystack]

theorem skips_recordTail (fuel : Nat) (r : Reader) (hr : r.Sound) (hb : r.Bounded)
    (hpending : r.pendingCr = false) (hfuel : r.bytesLeft < fuel) :
    Skips r (skipRecordTail fuel r) := by
  induction fuel generalizing r with
  | zero => omega
  | succ fuel ih =>
    rw [skipRecordTail, available]
    have hle := hr.start_le
    by_cases hempty : r.buf.length ≤ r.start
    · have hnone : r.haystack = [] := List.drop_eq_nil_of_le hempty
      rw [if_pos hempty]
      rcases source_cases hr with hend | ⟨chunk, source, hne, hsource⟩
      · rw [fillBuf_end hend]
        refine ⟨⟨hr.1, hr.2, fun _ => hend, hr.4, hr.5, hr.6⟩, fun _ => hend, ?_, rfl, rfl, rfl,
          rfl⟩
        simp [remaining, hpending, haystack, List.drop_eq_nil_of_le hempty, hend, delivered,
          skipLine]
      · rw [fillBuf_chunk hr hsource]
        obtain ⟨byte, rest, rfl⟩ := List.exists_cons_of_ne_nil hne
        have hleft := bytesLeft_refill hr hsource
        have hskip := skips_buffered (sound_refill hr hsource)
          (bounded_push hb (by simp [refill]) (by simp [refill]) (List.append_nil _).symm
            (by simp)) hpending
          (by rw [haystack_refill hr, hnone]; rfl) ih (by omega)
        exact ⟨hskip.sound, hskip.at_end,
          hskip.remaining.trans (by rw [remaining_refill hr hsource]),
          hskip.fields.trans (fields_refill hb),
          (⟨rfl, rfl, rfl⟩ : SameFrame r (r.refill (byte :: rest) source)).trans
            hskip.frame⟩
    · rw [if_neg hempty]
      cases hnow : r.haystack with
      | nil => exact absurd (List.drop_eq_nil_iff.mp hnow) hempty
      | cons byte rest => exact skips_buffered hr hb hpending hnow ih hfuel

theorem advances_trailingContent (hr : r.Sound) (hb : r.Bounded)
    (hstate : r.state = .afterQuote) (hpending : r.pendingCr = false) :
    r.Advances (some ⟨r.fields, some .trailingContent, skipLine r.remaining⟩)
      (.row (r.abandonRecord .trailingContent)) := by
  have hfinal : r.finalizeCurrentField = r := by simp [finalizeCurrentField, hstate]
  have hskip := skips_recordTail (r.bytesLeft + 2) r hr hb hpending (by omega)
  simp only [abandonRecord, hfinal]
  split
  · exact advances_row hskip.sound hskip.frame hskip.fields rfl hskip.remaining
  · next hfound =>
    have hend := hskip.at_end (by simpa using hfound)
    refine advances_row ⟨hskip.sound.1, hskip.sound.2, fun _ => hend, hskip.sound.4,
      hskip.sound.5, hskip.sound.6⟩ ⟨hskip.frame.1, hskip.frame.2, hskip.frame.3⟩ hskip.fields
      rfl hskip.remaining

theorem advances_afterQuote {field : Bytes} {fields : List Bytes}
    (hr : r.Follows (.quoteSeen field) fields) (hstate : r.state = .afterQuote)
    (hfields : r.fields = fields ++ [field]) (hnext : r.remaining.head? ≠ some 34)
    (hnow : r.haystack = byte :: rest)
    (hpending : r.pendingCr = false) :
    r.Advances (scan r.settings.delimiter.byte (.quoteSeen field) fields r.remaining)
      r.stepAfterQuote := by
  have hremaining : r.remaining = byte :: (rest ++ delivered r.source) := by
    rw [remaining_of_not_pending hpending, hnow, List.cons_append]
  have hlen : r.buf.length = r.start + 1 + rest.length :=
    @length_of_haystack r [byte] rest hr.sound.start_le hnow
  have hdrop : r.buf.drop (r.start + 1) = rest := @drop_of_haystack r [byte] rest hnow
  have hquote : byte ≠ 34 := by simpa [hremaining] using hnext
  rw [stepAfterQuote, hremaining, scan, byteAt_start hnow, if_neg hquote]
  split_ifs with hdelimiter hnewline
  · refine @advances_more r _ [] .start (fields ++ [field]) _ hr.sound hr.bounded hpending
      hpending rfl rfl hr.sound.eof_source (List.prefix_refl _) (List.append_nil _).symm (by simp)
      (Nat.lt_succ_self _) (by simp only; omega) ⟨rfl, rfl, rfl⟩ ?_ (by rw [hdrop])
    rw [← hfields]
    exact @Stands.start { r with start := r.start + 1, state := .startOfField } rfl
  · exact advances_newline hr.sound (.refl r) hpending hnow hnewline hfields rfl rfl
  · have hother := advances_trailingContent hr.sound hr.bounded hstate hpending
    rw [hfields, hremaining, skipLine, if_neg hnewline] at hother
    exact hother

theorem remaining_pendingCr (hpending : r.pendingCr = true) (hnow : r.haystack = byte :: rest) :
    remaining { r with
      start := if r.byteAt r.start = 10 then r.start + 1 else r.start
      pendingCr := false } = r.remaining := by
  have hdrop : r.buf.drop (r.start + 1) = rest := @drop_of_haystack r [byte] rest hnow
  rw [remaining_of_not_pending rfl, remaining, if_pos hpending, haystack, byteAt_start hnow]
  simp only [hnow]
  split
  · next hlf => simp [hdrop, hlf, afterBreak]
  · next hlf => rw [← haystack_eq, hnow]; simp [hlf, afterBreak]

/-- The `\n` of a `\r\n` that a refill cut in two. -/
theorem advances_pendingCr {phase : Phase} {fields : List Bytes} (hr : r.Follows phase fields)
    (hpending : r.pendingCr = true) (hnow : r.haystack = byte :: rest) :
    r.Advances (scan r.settings.delimiter.byte phase fields r.remaining)
      (.more { r with
        start := if r.byteAt r.start = 10 then r.start + 1 else r.start
        pendingCr := false }) := by
  have hle := hr.sound.start_le
  have hlen : r.buf.length = r.start + 1 + rest.length :=
    @length_of_haystack r [byte] rest hle hnow
  have hremaining := remaining_pendingCr hpending hnow
  rw [byteAt_start hnow] at hremaining ⊢
  let there : Reader :=
    { r with start := if byte = 10 then r.start + 1 else r.start, pendingCr := false }
  have hstop : there.start ≤ r.buf.length := by
    simp only [there]
    split <;> omega
  have heffort : there.effort < r.effort := by
    have hleft := @bytesLeft_of_same r there rfl rfl (by
      simp only [there]; split <;> omega)
    rw [effort, effort, hpending]
    simp only [there, Bool.toNat_false, Bool.toNat_true] at hleft ⊢
    omega
  refine ⟨phase, fields, ⟨⟨hstop, hr.sound.2, hr.sound.3, hr.sound.4, hr.sound.5, hr.sound.6⟩,
    hr.bounded, ?_, by simp⟩, by rw [← hremaining], heffort, rfl, rfl, rfl⟩
  have hphase := (hr.pending hpending).1
  cases hr.stands with
  | start hstate => exact .start hstate
  | unquoted => cases hphase
  | quoted => cases hphase
  | afterQuote => cases hphase

theorem advances_byte {phase : Phase} {fields : List Bytes} (hr : r.Follows phase fields)
    (hnow : r.haystack = byte :: rest) :
    r.Advances (scan r.settings.delimiter.byte phase fields r.remaining) r.stepByte := by
  have hlimit : r.limitExceeded = none := by
    simp [limitExceeded, hr.sound.no_record_limit, hr.sound.no_column_limit]
  rw [stepByte, hlimit]
  simp only
  split
  · next hpending => exact advances_pendingCr hr hpending hnow
  · next hpending =>
    have hpending' : r.pendingCr = false := by simpa using hpending
    cases hr.stands with
    | start hstate =>
      rw [hstate]
      exact advances_startOfField hr hstate hpending' hnow
    | unquoted hstate hstart =>
      rw [hstate]
      exact advances_inUnquoted hr hstart hstate hnow hpending'
    | quoted hstate hstart =>
      rw [hstate]
      exact advances_inQuoted hr hstate hstart hpending' hnow
    | afterQuote hstate hfields hnext =>
      rw [hstate]
      exact advances_afterQuote hr hstate hfields hnext hnow hpending'

theorem advances_end {phase : Phase} {fields : List Bytes} (hr : r.Follows phase fields)
    (hempty : r.haystack = []) (hsource : r.source = []) :
    r.Advances (scan r.settings.delimiter.byte phase fields r.remaining) r.stepEnd := by
  have hremaining : r.remaining = [] := by
    rw [remaining, hempty, hsource]
    simp [delivered]
  have hpush (range : RawField) (r' : Reader) (hbuf : r'.buf = r.buf)
      (hscratch : r'.scratch = r.scratch) (hranges : r'.ranges = r.ranges ++ [range]) :
      r'.fields = r.fields ++ [r'.resolve range] :=
    fields_push hr.bounded (by rw [hbuf]) (by rw [hscratch]) hranges
  have hsound (start stop : Nat) : (r.pushRange start stop .buf).Sound :=
    ⟨hr.sound.1, hr.sound.2, hr.sound.3, hr.sound.4, hr.sound.5, hr.sound.6⟩
  rw [hremaining, scan, stepEnd]
  cases hr.stands with
  | start hstate =>
    have hnil : r.ranges = [] ↔ r.fields = [] := by simp [Reader.fields]
    simp only [hstate, and_true, scanEnd, finalizeCurrentField]
    by_cases hnone : r.ranges = []
    · rw [if_pos hnone, if_pos (hnil.mp hnone)]
      exact ⟨hr.sound, rfl, rfl, rfl, rfl, hremaining⟩
    · rw [if_neg hnone, if_neg (mt hnil.mpr hnone), if_neg hnone]
      refine advances_row (hsound _ _) ⟨rfl, rfl, rfl⟩ ?_ rfl hremaining
      rw [hpush ⟨r.start, r.start, .buf⟩ (r.pushRange r.start r.start .buf) rfl rfl rfl]
      simp [resolve]
  | unquoted hstate hstart =>
    simp only [hstate, and_false, if_false, scanEnd, reduceCtorEq, finalizeCurrentField]
    refine advances_row (hsound _ _) ⟨rfl, rfl, rfl⟩ ?_ rfl hremaining
    exact hpush ⟨r.fieldStart, r.start, .buf⟩ _ rfl rfl rfl
  | quoted hstate hstart =>
    simp only [hstate, and_false, if_false, scanEnd, reduceCtorEq]
    exact advances_row hr.sound (.refl r) rfl rfl hremaining
  | afterQuote hstate hfields hnext =>
    simp only [hstate, and_false, if_false, scanEnd, reduceCtorEq, finalizeCurrentField]
    exact advances_row hr.sound (.refl r) hfields rfl hremaining

theorem follows_eof {phase : Phase} {fields : List Bytes} (hr : r.Follows phase fields)
    (hsource : r.source = []) : Follows { r with eof := true } phase fields where
  sound := ⟨hr.sound.1, hr.sound.2, fun _ => hsource, hr.sound.4, hr.sound.5, hr.sound.6⟩
  bounded := hr.bounded
  pending := hr.pending
  stands := by
    cases hr.stands with
    | start hstate => exact .start hstate
    | unquoted hstate hstart => exact .unquoted hstate hstart
    | quoted hstate hstart => exact .quoted hstate hstart
    | afterQuote hstate hfields hnext => exact .afterQuote hstate hfields hnext

theorem Advances.of_eof {expected : Option Scanned} {progress : Progress}
    (h : Advances { r with eof := true } expected progress) : r.Advances expected progress := by
  cases progress with
  | done row r' => exact ⟨h.1, h.2, h.3, h.4, h.5, h.6⟩
  | more r' =>
    obtain ⟨phase, fields, hfollows, hscan, heffort, hframe⟩ := h
    exact ⟨phase, fields, hfollows, hscan, heffort, hframe.1, hframe.2, hframe.3⟩

end Rounds

/-! ## Records -/

theorem advances_step {r : Reader} {phase : Phase} {fields : List Bytes}
    (hr : r.Follows phase fields) :
    r.Advances (scan r.settings.delimiter.byte phase fields r.remaining) r.step := by
  rw [step]
  split
  · next hempty =>
    have hnone : r.haystack = [] := List.drop_eq_nil_of_le hempty
    rcases source_cases hr.sound with hend | ⟨chunk, source, hne, hsource⟩
    · rw [fillBuf_end hend]
      exact Advances.of_eof (advances_end (follows_eof hr hend) hnone hend)
    · rw [fillBuf_chunk hr.sound hsource]
      obtain ⟨byte, rest, rfl⟩ := List.exists_cons_of_ne_nil hne
      refine Advances.of_refill hr.sound hsource ?_
      rw [← remaining_refill hr.sound hsource]
      exact advances_byte (follows_refill hr hsource)
        (by rw [haystack_refill hr.sound, hnone]; rfl)
  · next hmore =>
    cases hnow : r.haystack with
    | nil => exact absurd (List.drop_eq_nil_iff.mp hnow) hmore
    | cons byte rest => exact advances_byte hr hnow

theorem yields_loop (fuel : Nat) (r : Reader) (phase : Phase) (fields : List Bytes)
    (hr : r.Follows phase fields) (hfuel : r.effort < fuel) :
    r.Yields (scan r.settings.delimiter.byte phase fields r.remaining) (loop fuel r).1
      (loop fuel r).2 := by
  induction fuel generalizing r phase fields with
  | zero => omega
  | succ fuel ih =>
    have hstep := advances_step hr
    rw [loop]
    cases hprogress : r.step with
    | done row r' =>
      rw [hprogress] at hstep
      exact hstep
    | more r' =>
      rw [hprogress] at hstep
      obtain ⟨phase', fields', hfollows, hscan, heffort, hframe⟩ := hstep
      have hyields := ih r' phase' fields' hfollows (by omega)
      rw [hframe.settings, hscan] at hyields
      refine ⟨hyields.sound, hyields.settings.trans hframe.settings,
        hyields.bomChecked.trans hframe.bomChecked, ?_, ?_, hyields.remaining⟩
      · rw [hyields.row_eq, hframe.settings, hframe.numFields]
      · rw [hyields.numFields, hframe.settings, hframe.numFields]

end Reader

end Stdx.Csv
