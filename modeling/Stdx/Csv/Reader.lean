import Stdx.Foundation.Slices
import Stdx.Foundation.Utf8

/-!
# The CSV reader

The pull parser of `csv/reader.rs`.  Its buffer holds what the source has delivered and
not yet dropped; fields are ranges into the buffer or, unescaped, into `scratch`.  The
source is the list of what its `read` calls return: a chunk, or an error.  The end of
valid data in the source's record, `end`, is always the length of `buf`.
-/

namespace Stdx.Csv

open Stdx.Foundation

inductive ReadErrorKind where
  | unterminatedQuote
  | trailingContent
  | invalidUtf8
  | inconsistentFieldCount (expected found : Nat)
  | recordTooLarge (limit : Nat)
  | fieldTooLarge (limit : Nat)
  | tooManyColumns (limit : Nat)
  | noProgress
  | io
deriving DecidableEq, Repr

structure ReadError where
  kind : ReadErrorKind
  line : Nat
  column : Nat
deriving DecidableEq, Repr

inductive State where
  | startOfField
  | inUnquoted
  | inQuoted
  | afterQuote
deriving DecidableEq, Repr

inductive Src where
  | buf
  | scratch
deriving DecidableEq, Repr

structure RawField where
  start : Nat
  stop : Nat
  src : Src
deriving DecidableEq, Repr

structure Row where
  fields : List Bytes
  error : Option ReadError
  line : Nat
deriving DecidableEq, Repr

structure Delimiter where
  byte : UInt8
  allowed : byte ≠ 34 ∧ byte ≠ 13 ∧ byte ≠ 10

structure Settings where
  delimiter : Delimiter
  flexible : Bool
  stripBom : Bool
  maxRecordBytes : Option Nat
  maxFieldBytes : Option Nat
  maxColumns : Option Nat

/-- What one call of `Read::read` returns before the end of the input. -/
abbrev Delivery := Except ReadErrorKind Bytes

structure Reader where
  settings : Settings
  buf : Bytes
  scratch : Bytes
  ranges : List RawField
  start : Nat
  discarded : Nat
  recordStart : Nat
  line : Nat
  recordLine : Nat
  fieldStart : Nat
  scratchFieldStart : Nat
  state : State
  numFields : Option Nat
  pendingCr : Bool
  pendingLfQuoted : Bool
  bomChecked : Bool
  headers : Option (List String)
  source : List Delivery
  eof : Bool

def BOM : Bytes := [0xEF, 0xBB, 0xBF]

def isNewline (byte : UInt8) : Bool := byte == 10 || byte == 13

namespace Reader

def new (settings : Settings) (source : List Delivery) : Reader where
  settings := settings
  buf := []
  scratch := []
  ranges := []
  start := 0
  discarded := 0
  recordStart := 0
  line := 1
  recordLine := 1
  fieldStart := 0
  scratchFieldStart := 0
  state := .startOfField
  numFields := none
  pendingCr := false
  pendingLfQuoted := false
  bomChecked := false
  headers := none
  source := source
  eof := false

def setHeaders (r : Reader) (headers : List String) : Reader :=
  { r with
    numFields := if headers = [] then r.numFields else some headers.length
    headers := some headers }

def byteAt (r : Reader) (i : Nat) : UInt8 := r.buf.getD i 0

/-- `self.buf[self.start..self.end]` -/
def haystack (r : Reader) : Bytes := r.buf.drop r.start

/-! ## Refills -/

def fillBuf (r : Reader) : Except ReadErrorKind Bool × Reader :=
  if r.eof then (.ok false, r)
  else
    match r.source with
    | [] => (.ok false, { r with eof := true })
    | .error kind :: rest => (.error kind, { r with source := rest })
    | .ok chunk :: rest =>
      if chunk = [] then (.error .noProgress, { r with source := rest, eof := true })
      else (.ok true, { r with source := rest, buf := r.buf ++ chunk })

def awaitBom : Nat → Reader → Except ReadErrorKind Unit × Reader
  | 0, r => (.ok (), r)
  | fuel + 1, r =>
    if r.buf.length - r.start < 3 ∧ r.eof = false then
      match r.fillBuf with
      | (.error kind, r) => (.error kind, r)
      | (.ok _, r) => awaitBom fuel r
    else (.ok (), r)

def stripLeadingBom (r : Reader) : Except ReadErrorKind Unit × Reader :=
  if r.bomChecked then (.ok (), r)
  else
    let r := { r with bomChecked := true }
    if r.settings.stripBom then
      match awaitBom (r.source.length + 1) r with
      | (.error kind, r) => (.error kind, r)
      | (.ok _, r) =>
        (.ok (), if BOM.isPrefixOf r.haystack then { r with start := r.start + 3 } else r)
    else (.ok (), r)

@[grind =]
def compact (r : Reader) : Reader :=
  if r.start = 0 then r
  else if r.start < 4096 ∧ r.start * 2 < r.buf.length then r
  else { r with buf := r.haystack, start := 0, discarded := r.discarded + r.start }

/-! ## Rows -/

def resolve (r : Reader) (range : RawField) : Bytes :=
  match range.src with
  | .buf => slice r.buf range.start range.stop
  | .scratch => slice r.scratch range.start range.stop

def buildRow (r : Reader) (error : Option ReadError) : Row × Reader :=
  let fields := r.ranges.map r.resolve
  let fieldCount := fields.length
  let error :=
    if r.settings.flexible then error
    else
      match error, r.numFields with
      | none, some expected =>
        if fieldCount ≠ expected then
          some ⟨.inconsistentFieldCount expected fieldCount, r.recordLine, 0⟩
        else none
      | error, _ => error
  let numFields :=
    if r.numFields = none ∧ fieldCount > 0 ∧ error = none then some fieldCount
    else r.numFields
  (⟨fields, error, r.recordLine⟩, { r with numFields := numFields })

def pushRange (r : Reader) (start stop : Nat) (src : Src) : Reader :=
  { r with ranges := r.ranges ++ [⟨start, stop, src⟩] }

def finalizeCurrentField (r : Reader) : Reader :=
  match r.state with
  | .inUnquoted => r.pushRange r.fieldStart r.start .buf
  | .inQuoted => r.pushRange r.scratchFieldStart r.scratch.length .scratch
  | .afterQuote => r
  | .startOfField => if r.ranges = [] then r else r.pushRange r.start r.start .buf

def consumeCr (r : Reader) : Reader :=
  if r.start < r.buf.length ∧ r.byteAt r.start = 13 then
    { r with start := r.start + 1
             pendingCr := if r.buf.length ≤ r.start + 1 then true else r.pendingCr }
  else r

def consumeLf (r : Reader) : Reader :=
  if r.start < r.buf.length ∧ r.byteAt r.start = 10 then { r with start := r.start + 1 }
  else r

def consumeNewline (r : Reader) : Reader :=
  { r.consumeCr.consumeLf with line := r.line + 1 }

def countBreaks : Bytes → Nat × Bool
  | [] => (0, false)
  | [13] => (1, true)
  | 13 :: 10 :: rest => let (n, pending) := countBreaks rest; (n + 1, pending)
  | byte :: rest =>
    let (n, pending) := countBreaks rest
    (if isNewline byte then n + 1 else n, pending)

def countLineBreaks (bytes : Bytes) (pendingCr : Bool) : Nat × Bool :=
  if bytes.all fun byte => !isNewline byte then
    (0, if bytes = [] then pendingCr else false)
  else if pendingCr ∧ bytes.head? = some 10 then countBreaks (bytes.drop 1)
  else countBreaks bytes

/-! ## Limits -/

def limitExceeded (r : Reader) : Option ReadErrorKind :=
  let record := r.settings.maxRecordBytes.bind fun limit =>
    if r.discarded + r.start - r.recordStart > limit then some (.recordTooLarge limit)
    else none
  let columns := r.settings.maxColumns.bind fun limit =>
    if r.ranges.length > limit then some (.tooManyColumns limit) else none
  record.or columns

def fieldLimitExceeded (r : Reader) (len : Nat) : Option ReadErrorKind :=
  r.settings.maxFieldBytes.bind fun limit =>
    if len > limit then some (.fieldTooLarge limit) else none

/-- Whether there is an octet to look at, after a refill if need be. -/
def available (r : Reader) : Bool × Reader :=
  if r.buf.length ≤ r.start then
    match r.fillBuf with
    | (.ok true, r) => (true, r)
    | (_, r) => (false, r)
  else (true, r)

def skipBuffered (r : Reader) : Option Bool × Reader :=
  if r.pendingCr then
    (some true, { r with
      start := if r.byteAt r.start = 10 then r.start + 1 else r.start
      pendingCr := false })
  else
    let offset := r.haystack.findIdx isNewline
    if offset < r.haystack.length then
      (some true, consumeNewline { r with start := r.start + offset })
    else
      let r := { r with start := r.buf.length }
      match r.settings.maxRecordBytes with
      | some limit =>
        if r.discarded + r.start - r.recordStart > limit then (some false, r)
        else (none, r)
      | none => (none, r)

def skipRecordTail : Nat → Reader → Bool × Reader
  | 0, r => (false, r)
  | fuel + 1, r =>
    match r.available with
    | (false, r) => (false, r)
    | (true, r) =>
      match r.skipBuffered with
      | (some found, r) => (found, r)
      | (none, r) => skipRecordTail fuel r

def bytesLeft (r : Reader) : Nat :=
  (r.buf.length - r.start) + (r.source.map fun
    | .ok chunk => chunk.length + 1
    | .error _ => 1).sum

def abandonRecord (r : Reader) (kind : ReadErrorKind) : Row × Reader :=
  let error : ReadError := ⟨kind, r.recordLine, 0⟩
  let r :=
    match kind with
    | .recordTooLarge _ | .fieldTooLarge _ | .tooManyColumns _ =>
      { r with start := r.buf.length, eof := true }
    | _ =>
      let r := r.finalizeCurrentField
      let (found, r) := skipRecordTail (r.bytesLeft + 2) r
      if found then r else { r with eof := true }
  r.buildRow (some error)

/-! ## The state machine -/

/-- One round of the loop of `read_row`: on to the next one, or out of it. -/
inductive Progress where
  | more (r : Reader)
  | done (row : Option Row) (r : Reader)

def Progress.row (result : Row × Reader) : Progress := .done (some result.1) result.2

def stepStartOfField (r : Reader) : Progress :=
  let byte := r.byteAt r.start
  if isNewline byte then
    if r.ranges = [] then .more r.consumeNewline
    else .row ((r.pushRange r.start r.start .buf).consumeNewline.buildRow none)
  else
    let r := { r with fieldStart := r.start }
    if byte = r.settings.delimiter.byte then
      .more { r.pushRange r.start r.start .buf with start := r.start + 1 }
    else if byte = 34 then
      .more { r with scratchFieldStart := r.scratch.length, start := r.start + 1,
                     state := .inQuoted }
    else .more { r with start := r.start + 1, state := .inUnquoted }

def stepInUnquoted (r : Reader) : Progress :=
  let delimiter := r.settings.delimiter.byte
  let offset := r.haystack.findIdx fun byte => byte == delimiter || isNewline byte
  if offset < r.haystack.length then
    let pos := r.start + offset
    match r.fieldLimitExceeded (pos - r.fieldStart) with
    | some kind => .row (r.abandonRecord kind)
    | none =>
      let r := r.pushRange r.fieldStart pos .buf
      if r.byteAt pos = delimiter then
        .more { r with start := pos + 1, state := .startOfField }
      else .row ((consumeNewline { r with start := pos }).buildRow none)
  else
    let r := { r with start := r.buf.length }
    match r.fieldLimitExceeded (r.buf.length - r.fieldStart) with
    | some kind => .row (r.abandonRecord kind)
    | none => .more r

def closeQuote (r : Reader) (afterQuote : Nat) : Reader :=
  { r.pushRange r.scratchFieldStart r.scratch.length .scratch with
    start := afterQuote, state := .afterQuote }

def escapeQuote (r : Reader) (afterQuote : Nat) : Reader :=
  { r with scratch := r.scratch ++ [34], start := afterQuote + 1 }

def stepLastQuote (r : Reader) (afterQuote : Nat) : Progress :=
  match r.fillBuf with
  | (.error kind, r) =>
    .row ((r.closeQuote afterQuote).buildRow (some ⟨kind, r.recordLine, 0⟩))
  | (.ok filled, r) =>
    if filled ∧ r.buf[afterQuote]? = some 34 then .more (r.escapeQuote afterQuote)
    else .more (r.closeQuote afterQuote)

def takeSegment (r : Reader) (segment : Bytes) : Reader :=
  { r with
    line := r.line + (countLineBreaks segment r.pendingLfQuoted).1
    pendingLfQuoted := false
    scratch := r.scratch ++ segment }

def stepInQuoted (r : Reader) : Progress :=
  let offset := r.haystack.findIdx (· == 34)
  if offset < r.haystack.length then
    let segment := r.haystack.take offset
    match r.fieldLimitExceeded (r.scratch.length - r.scratchFieldStart + segment.length) with
    | some kind => .row (r.abandonRecord kind)
    | none =>
      let r := r.takeSegment segment
      let afterQuote := r.start + offset + 1
      if afterQuote < r.buf.length then
        if r.byteAt afterQuote = 34 then .more (r.escapeQuote afterQuote)
        else .more (r.closeQuote afterQuote)
      else r.stepLastQuote afterQuote
  else
    let (breaks, pending) := countLineBreaks r.haystack r.pendingLfQuoted
    let r := { r with
      line := r.line + breaks
      pendingLfQuoted := pending
      scratch := r.scratch ++ r.haystack
      start := r.buf.length }
    match r.fieldLimitExceeded (r.scratch.length - r.scratchFieldStart) with
    | some kind => .row (r.abandonRecord kind)
    | none => .more r

def stepAfterQuote (r : Reader) : Progress :=
  let byte := r.byteAt r.start
  if byte = r.settings.delimiter.byte then
    .more { r with start := r.start + 1, state := .startOfField }
  else if isNewline byte then .row (r.consumeNewline.buildRow none)
  else .row (r.abandonRecord .trailingContent)

def stepByte (r : Reader) : Progress :=
  match r.limitExceeded with
  | some kind => .row (r.abandonRecord kind)
  | none =>
    if r.pendingCr then
      .more { r with
        start := if r.byteAt r.start = 10 then r.start + 1 else r.start
        pendingCr := false }
    else
      match r.state with
      | .startOfField => r.stepStartOfField
      | .inUnquoted => r.stepInUnquoted
      | .inQuoted => r.stepInQuoted
      | .afterQuote => r.stepAfterQuote

def stepEnd (r : Reader) : Progress :=
  if r.ranges = [] ∧ r.state = .startOfField then .done none r
  else
    match r.state with
    | .inQuoted => .row (r.buildRow (some ⟨.unterminatedQuote, r.recordLine, 0⟩))
    | _ => .row (r.finalizeCurrentField.buildRow none)

def step (r : Reader) : Progress :=
  if r.buf.length ≤ r.start then
    match r.fillBuf with
    | (.error kind, r) =>
      let r := { r with eof := true }
      let error : ReadError := ⟨kind, r.recordLine, 0⟩
      match r.state with
      | .inQuoted => .row (r.buildRow (some error))
      | _ => .row (r.finalizeCurrentField.buildRow (some error))
    | (.ok false, r) => r.stepEnd
    | (.ok true, r) => r.stepByte
  else r.stepByte

def loop : Nat → Reader → Option Row × Reader
  | 0, r => (none, r)
  | fuel + 1, r =>
    match r.step with
    | .more r => loop fuel r
    | .done row r => (row, r)

def readRow (r : Reader) : Option Row × Reader :=
  let r := r.compact
  let r := { r with ranges := [], scratch := [], state := .startOfField,
                    pendingLfQuoted := false, recordLine := r.line }
  match r.stripLeadingBom with
  | (.error kind, r) =>
    let (row, r) := { r with eof := true }.buildRow (some ⟨kind, r.recordLine, 0⟩)
    (some row, r)
  | (.ok _, r) => loop (2 * r.bytesLeft + 2) { r with recordStart := r.discarded + r.start }

/-! ## Iteration -/

def fieldText (field : Bytes) : Except ReadErrorKind String :=
  match fromUtf8 field with
  | some s => .ok s
  | none => .error .invalidUtf8

/-- `Row::to_vec` -/
def rowToVec (row : Row) : Except ReadErrorKind (List String) :=
  match row.error with
  | some error => .error error.kind
  | none => row.fields.mapM fieldText

def parseHeaders (r : Reader) : Except ReadErrorKind (List String) × Reader :=
  match r.readRow with
  | (none, r) => (.ok [], r)
  | (some row, r) =>
    match rowToVec row with
    | .error kind => (.error kind, r)
    | .ok headers =>
      (.ok headers, { r with numFields := some headers.length, headers := some headers })

def rows : Nat → Reader → List Row
  | 0, _ => []
  | fuel + 1, r =>
    match r.readRow with
    | (none, _) => []
    | (some row, r) => row :: rows fuel r

end Reader

end Stdx.Csv
