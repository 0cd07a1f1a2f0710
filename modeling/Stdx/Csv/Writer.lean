import Stdx.Csv.Reader
import Stdx.Foundation.Utf8

/-!
# The CSV writer

`csv/writer.rs`, and the serializer of `csv/serde.rs`, over a sink that accepts every
octet.  `sink` is what has been flushed, `buf` what has not; `serValues` are the scratch
values, one a column, that `serialize` reuses.
-/

namespace Stdx.Csv

open Stdx.Foundation

inductive WriteError where
  | inconsistentFieldCount (expected found row : Nat)
  | headersAlreadyWritten
  | serialize (message : String)
deriving DecidableEq, Repr

structure Writer where
  delimiter : Delimiter
  flexible : Bool
  writeBom : Bool
  sink : Bytes
  numFields : Option Nat
  rowCount : Nat
  buf : Bytes
  bomWritten : Bool
  headers : Option (List String)
  headersWritten : Bool
  serValues : List (Option Bytes)

def escapeQuotes (field : Bytes) : Nat → Nat → Bytes → Bytes
  | 0, _, buf => buf
  | fuel + 1, pos, buf =>
    let quoteOffset := (field.drop pos).findIdx (· == 34)
    if quoteOffset < (field.drop pos).length then
      let absPos := pos + quoteOffset
      escapeQuotes field fuel (absPos + 1) (buf ++ slice field pos absPos ++ [34, 34])
    else buf ++ field.drop pos

def needsQuoting (delimiter : UInt8) (field : Bytes) : Bool :=
  (field.any fun byte => byte == delimiter || isNewline byte) || field.any (· == 34)

def writeCsvField (buf : Bytes) (delimiter : UInt8) (field : Bytes) : Bytes :=
  if needsQuoting delimiter field then
    escapeQuotes field (field.length + 1) 0 (buf ++ [34]) ++ [34]
  else buf ++ field

namespace Writer

def new (delimiter : Delimiter) (flexible writeBom : Bool) : Writer where
  delimiter := delimiter
  flexible := flexible
  writeBom := writeBom
  sink := []
  numFields := none
  rowCount := 0
  buf := []
  bomWritten := false
  headers := none
  headersWritten := false
  serValues := []

def setHeaders (w : Writer) (headers : List String) : Writer := { w with headers := some headers }

def writePendingBom (w : Writer) : Writer :=
  if w.writeBom ∧ w.bomWritten = false then { w with buf := w.buf ++ BOM, bomWritten := true }
  else w

@[grind =]
def writeFields (delimiter : UInt8) : Bool → Bytes → List Bytes → Bytes
  | _, buf, [] => buf
  | first, buf, field :: row =>
    let buf := if first then buf else buf ++ [delimiter]
    writeFields delimiter false (writeCsvField buf delimiter field) row

def flush (w : Writer) : Writer := { w with sink := w.sink ++ w.buf, buf := [] }

def flushIfFull (w : Writer) : Writer := if 8192 ≤ w.buf.length then w.flush else w

def writeRow (w : Writer) (row : List Bytes) : Except WriteError Unit × Writer :=
  let w := w.writePendingBom
  let fieldCount := row.length
  let buf := writeFields w.delimiter.byte true w.buf row
  if w.flexible then
    (.ok (), flushIfFull { w with
      buf := buf ++ [13, 10]
      numFields := if w.numFields = none ∧ fieldCount > 0 then some fieldCount else w.numFields
      rowCount := w.rowCount + 1 })
  else
    match w.numFields with
    | some expected =>
      if fieldCount ≠ expected then
        (.error (.inconsistentFieldCount expected fieldCount (w.rowCount + 1)), w)
      else (.ok (), flushIfFull { w with buf := buf ++ [13, 10], rowCount := w.rowCount + 1 })
    | none =>
      (.ok (), flushIfFull { w with
        buf := buf ++ [13, 10], numFields := some fieldCount, rowCount := w.rowCount + 1 })

def writeHeaders (w : Writer) (headers : List String) : Except WriteError Unit × Writer :=
  if w.headersWritten then (.error .headersAlreadyWritten, w)
  else
    let count := headers.length
    let expected := w.numFields.or (w.headers.map List.length)
    match (if w.flexible then none else expected.filter (count ≠ ·)) with
    | some expected => (.error (.inconsistentFieldCount expected count (w.rowCount + 1)), w)
    | none =>
      let w := w.writePendingBom
      (.ok (), flushIfFull { w with
        buf := writeFields w.delimiter.byte true w.buf (headers.map utf8) ++ [13, 10]
        rowCount := w.rowCount + 1
        headers := some headers
        headersWritten := true
        numFields := some count })

def intoInner (w : Writer) : Bytes := w.flush.sink

end Writer

/-! ## Serialization -/

inductive SeqKind where
  | seq
  | tuple
  | tupleStruct
deriving DecidableEq, Repr

/-- What a `Serialize` implementation asks of a serializer.  A sequence or structure may
break off with an error of its own after the elements it has given. -/
inductive Value where
  | bool (b : Bool)
  | int (n : Int)
  /-- The text that `ryu` gives. -/
  | float (text : Bytes)
  | char (c : Char)
  | str (s : String)
  | bytes (octets : Bytes)
  | none
  | some (value : Value)
  | unit
  | unitStruct
  | newtypeStruct (value : Value)
  | variant
  | sequence (kind : SeqKind) (elements : List Value) (failure : Option String)
  | map
  | struct (fields : List (String × Value)) (failure : Option String)
  | fail (message : String)

def captureField (slot : Bytes) : Value → Except String Unit × Bytes
  | .bool b => (.ok (), slot ++ utf8 (if b then "true" else "false"))
  | .int n => (.ok (), slot ++ utf8 (toString n))
  | .float text => (.ok (), slot ++ text)
  | .char c => (.ok (), slot ++ utf8 (String.singleton c))
  | .str s => (.ok (), slot ++ utf8 s)
  | .bytes octets => (.ok (), slot ++ octets)
  | .none => (.ok (), slot)
  | .some value => captureField slot value
  | .unit => (.ok (), slot)
  | .unitStruct => (.ok (), slot)
  | .newtypeStruct value => captureField slot value
  | .variant => (.error "enum variants not supported in field capture", slot)
  | .sequence .seq _ _ => (.error "sequence inside a single field not supported", slot)
  | .sequence .tuple _ _ => (.error "tuple inside a single field not supported", slot)
  | .sequence .tupleStruct _ _ => (.error "tuple struct inside a single field not supported", slot)
  | .map => (.error "map inside a single field not supported", slot)
  | .struct _ _ => (.error "struct inside a single field not supported", slot)
  | .fail message => (.error message, slot)

def writeFieldBytes (values : List (Option Bytes)) (octets : Bytes) : List (Option Bytes) :=
  match values with
  | [] => []
  | _ :: rest => some octets :: rest

def captureAt (values : List (Option Bytes)) (pos : Nat) (value : Value) :
    Except String Unit × List (Option Bytes) :=
  let (result, slot) := captureField [] value
  (result, values.set pos (some slot))

def collectFields (headers : List String) : List (Option Bytes) → List (String × Value) →
    Except String Unit × List (Option Bytes)
  | values, [] => (.ok (), values)
  | values, (key, value) :: fields =>
    let pos := headers.idxOf key
    if pos < headers.length then
      match captureAt values pos value with
      | (.error message, values) => (.error message, values)
      | (.ok _, values) => collectFields headers values fields
    else (.error ("unknown field '" ++ key ++ "'"), values)

def writeElements : Nat → List (Option Bytes) → List Value →
    Except String Nat × List (Option Bytes)
  | idx, values, [] => (.ok idx, values)
  | idx, values, value :: elements =>
    if idx ≥ values.length then (.error "sequence longer than header count", values)
    else
      match captureAt values idx value with
      | (.error message, values) => (.error message, values)
      | (.ok _, values) => writeElements (idx + 1) values elements

@[grind =]
def serializeRecord (headers : List String) (values : List (Option Bytes)) :
    Value → Except String Unit × List (Option Bytes)
  | .bool b => (.ok (), writeFieldBytes values (utf8 (if b then "true" else "false")))
  | .int n => (.ok (), writeFieldBytes values (utf8 (toString n)))
  | .float text => (.ok (), writeFieldBytes values text)
  | .char c => (.ok (), writeFieldBytes values (utf8 (String.singleton c)))
  | .str s => (.ok (), writeFieldBytes values (utf8 s))
  | .bytes octets => (.ok (), writeFieldBytes values octets)
  | .none => (.ok (), writeFieldBytes values [])
  | .some value => serializeRecord headers values value
  | .unit => (.ok (), writeFieldBytes values [])
  | .unitStruct => (.ok (), writeFieldBytes values [])
  | .newtypeStruct value => serializeRecord headers values value
  | .variant => (.error "enum variants not supported", values)
  | .sequence _ elements failure =>
    match writeElements 0 values elements with
    | (.error message, values) => (.error message, values)
    | (.ok idx, values) =>
      match failure with
      | some message => (.error message, values)
      | none =>
        if idx ≠ values.length then
          (.error "sequence length does not match header count", values)
        else (.ok (), values)
  | .map => (.error "maps not supported", values)
  | .struct fields failure =>
    match collectFields headers values fields with
    | (.error message, values) => (.error message, values)
    | (.ok _, values) =>
      match failure with
      | some message => (.error message, values)
      | none => (.ok (), values)
  | .fail message => (.error message, values)

namespace Writer

/-- One slot a column, and none with an old value. -/
def resetValues (w : Writer) (headerCount : Nat) : List (Option Bytes) :=
  let values := w.serValues.take headerCount
  let values := values ++ List.replicate (headerCount - values.length) none
  values.map (Option.map fun _ => [])

def writeValues (w : Writer) : Except WriteError Unit × Writer :=
  let row := w.serValues.map (Option.getD · [])
  (.ok (), flushIfFull { w with
    buf := writeFields w.delimiter.byte true w.buf row ++ [13, 10]
    rowCount := w.rowCount + 1 })

def serialize (w : Writer) (record : Value) : Except WriteError Unit × Writer :=
  match w.headers with
  | none => (.error (.serialize "headers not set"), w)
  | some headers =>
    let w := w.writePendingBom
    let headerCount := headers.length
    match serializeRecord headers (w.resetValues headerCount) record with
    | (.error message, values) => (.error (.serialize message), { w with serValues := values })
    | (.ok _, values) =>
      let w := { w with serValues := values }
      match w.numFields with
      | some expected =>
        if ¬w.flexible ∧ headerCount ≠ expected then
          (.error (.inconsistentFieldCount expected headerCount (w.rowCount + 1)), w)
        else w.writeValues
      | none => writeValues { w with numFields := some headerCount }

end Writer

/-- `write_row(row)?` for every row, then `into_inner`. -/
def writeAll : Writer → List (List Bytes) → Except WriteError Bytes
  | w, [] => .ok w.intoInner
  | w, row :: rows =>
    match w.writeRow row with
    | (.error e, _) => .error e
    | (.ok _, w) => writeAll w rows

end Stdx.Csv
