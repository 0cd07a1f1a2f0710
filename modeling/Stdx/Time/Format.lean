import Stdx.Foundation.FixedBuffer
import Stdx.Time.DateTime

/-!
# Formatting dates

The two formatters of `time/format.rs`: one writes into a buffer of the caller, the other
goes through format strings.  A text is its octets.
-/

namespace Stdx.Time

open Stdx.Foundation

def MAX_FORMATTED_LENGTH : Nat := 96

inductive Format where
  | rfc3339
  | rfc9557
  | iso8601
  | rfc2822
  | httpDate
  | dateOnly
  | timeOnly
deriving DecidableEq

def monthShort (month : Nat) : Bytes :=
  let months := ["Jan", "Feb", "Mar", "Apr", "May", "Jun", "Jul", "Aug", "Sep", "Oct", "Nov",
    "Dec"]
  if month = 0 then utf8 "???" else utf8 (months.getD (month - 1) "???")

/-! ## Into a buffer -/

namespace Buf

open Stdx.Foundation.Buf

def year (year : Int) : Writer :=
  if 0 ≤ year ∧ year ≤ 9999 then pad year.toNat 4
  else if year < 0 then writeAll [byte 45, pad (-year).toNat 4]
  else writeAll [byte 43, pad year.toNat 1]

def sign (offset : Int) : UInt8 := if offset < 0 then 45 else 43

def offset (offset : Int) : Writer :=
  let abs := offset.natAbs
  let seconds := abs % 60
  writeAll [byte (sign offset), pad (abs / 3600) 2, byte 58, pad (abs % 3600 / 60) 2,
    if seconds = 0 then writeAll [] else writeAll [byte 58, pad seconds 2]]

def offsetCompact (offset : Int) : Writer :=
  let abs := offset.natAbs
  writeAll [byte (sign offset), pad (abs / 3600) 2, pad (abs % 3600 / 60) 2]

def fraction (nanos : Nat) : Writer :=
  if nanos = 0 then writeAll []
  else if nanos % 1000000 = 0 then writeAll [byte 46, pad (nanos / 1000000) 3]
  else if nanos % 1000 = 0 then writeAll [byte 46, pad (nanos / 1000) 6]
  else writeAll [byte 46, pad nanos 9]

end Buf

open Foundation.Buf in
def formatClock (hour minute second : Nat) : Writer :=
  writeAll [pad hour 2, byte 58, pad minute 2, byte 58, pad second 2]

open Foundation.Buf in
def formatDay (p : Parts) : Writer :=
  writeAll [Buf.year p.year, byte 45, pad p.month 2, byte 45, pad p.day 2]

open Foundation.Buf in
def formatZone (name : Option Bytes) : Writer :=
  match name with
  | some name => writeAll [byte 91, writeBytes name, byte 93]
  | none => writeAll []

open Foundation.Buf in
def formatIso (dt : DateTime) (zSuffix zone : Bool) : Writer :=
  let p := dt.parts
  writeAll [formatDay p, byte 84, formatClock p.hour p.minute p.second, Buf.fraction p.nanos,
    if zSuffix && dt.offset = 0 then byte 90 else Buf.offset dt.offset,
    if zone then formatZone dt.timezoneName else writeAll []]

open Foundation.Buf in
/-- The weekday, the date and the time, as RFC 2822 and HTTP dates start. -/
def formatLong (dt : DateTime) : Writer :=
  let p := dt.parts
  writeAll [writeBytes dt.weekday.shortName, writeBytes (utf8 ", "), pad p.day 2, byte 32,
    writeBytes (monthShort p.month), byte 32, Buf.year p.year, byte 32,
    formatClock p.hour p.minute p.second]

open Foundation.Buf in
def formatRfc2822 (dt : DateTime) : Writer :=
  writeAll [formatLong dt, byte 32, Buf.offsetCompact dt.offset]

open Foundation.Buf in
def formatHttp (dt : DateTime) : Writer :=
  writeAll [formatLong (dt.inTimezone .utc), writeBytes (utf8 " GMT")]

def formatDate (dt : DateTime) : Writer := formatDay dt.parts

def formatTime (dt : DateTime) : Writer :=
  let p := dt.parts
  writeAll [formatClock p.hour p.minute p.second, Buf.fraction p.nanos]

def formatWriter (dt : DateTime) : Format → Writer
  | .rfc3339 => formatIso dt true false
  | .rfc9557 => formatIso dt true true
  | .iso8601 => formatIso dt false false
  | .rfc2822 => formatRfc2822 dt
  | .httpDate => formatHttp dt
  | .dateOnly => formatDate dt
  | .timeOnly => formatTime dt

/-- The number of octets written, if there was room, and the buffer afterwards. -/
def formatInto (out : Bytes) (dt : DateTime) (format : Format) : Option Nat × Bytes :=
  let (ok, buf) := formatWriter dt format ⟨out, 0⟩
  (if ok then some buf.len else none, buf.bytes)

/-- `Formatted::write_to` -/
def writeTo (dt : DateTime) (format : Format) (buffer : Bytes) : Except Error Nat × Bytes :=
  match formatInto buffer dt format with
  | (some len, out) => (.ok len, out)
  | (none, out) =>
    (.error ⟨.bufferTooSmall, "buffer is too small for the formatted value"⟩, out)

/-! ## Through format strings -/

def writeYear (year : Int) : Bytes :=
  if 0 ≤ year ∧ year ≤ 9999 then zeroPadded 4 year.toNat
  else if year < 0 then utf8 "-" ++ zeroPadded 4 (-year).toNat
  else utf8 "+" ++ decimalDigits year.toNat

def writeSign (offset : Int) : Bytes := if offset < 0 then utf8 "-" else utf8 "+"

def writeOffset (offset : Int) : Bytes :=
  let abs := offset.natAbs
  let hours := abs / 3600
  let minutes := abs % 3600 / 60
  let seconds := abs % 60
  if seconds = 0 then writeSign offset ++ zeroPadded 2 hours ++ utf8 ":" ++ zeroPadded 2 minutes
  else writeSign offset ++ zeroPadded 2 hours ++ utf8 ":" ++ zeroPadded 2 minutes ++ utf8 ":" ++
    zeroPadded 2 seconds

def writeOffsetCompact (offset : Int) : Bytes :=
  let abs := offset.natAbs
  writeSign offset ++ zeroPadded 2 (abs / 3600) ++ zeroPadded 2 (abs % 3600 / 60)

def writeFraction (nanos : Nat) : Bytes :=
  if nanos = 0 then []
  else if nanos % 1000000 = 0 then utf8 "." ++ zeroPadded 3 (nanos / 1000000)
  else if nanos % 1000 = 0 then utf8 "." ++ zeroPadded 6 (nanos / 1000)
  else utf8 "." ++ zeroPadded 9 nanos

def writeClock (hour minute second : Nat) : Bytes :=
  zeroPadded 2 hour ++ utf8 ":" ++ zeroPadded 2 minute ++ utf8 ":" ++ zeroPadded 2 second

def writeDay (month day : Nat) : Bytes :=
  utf8 "-" ++ zeroPadded 2 month ++ utf8 "-" ++ zeroPadded 2 day

def writeZone (name : Option Bytes) : Bytes :=
  match name with
  | some name => utf8 "[" ++ name ++ utf8 "]"
  | none => []

def writeIso (dt : DateTime) (zSuffix zone : Bool) : Bytes :=
  let p := dt.parts
  writeYear p.year ++ (writeDay p.month p.day ++ utf8 "T" ++ writeClock p.hour p.minute p.second) ++
    writeFraction p.nanos ++
    (if zSuffix && dt.offset = 0 then utf8 "Z" else writeOffset dt.offset) ++
    (if zone then writeZone dt.timezoneName else [])

def writeDate (dt : DateTime) : Bytes :=
  let p := dt.parts
  writeYear p.year ++ writeDay p.month p.day

def writeTime (dt : DateTime) : Bytes :=
  let p := dt.parts
  writeClock p.hour p.minute p.second ++ writeFraction p.nanos

def writeLong (dt : DateTime) : Bytes :=
  let p := dt.parts
  dt.weekday.shortName ++ utf8 ", " ++ zeroPadded 2 p.day ++ utf8 " " ++ monthShort p.month ++
    utf8 " " ++ writeYear p.year ++ utf8 " " ++ writeClock p.hour p.minute p.second

def writeRfc2822 (dt : DateTime) : Bytes :=
  writeLong dt ++ utf8 " " ++ writeOffsetCompact dt.offset

def writeHttpDate (dt : DateTime) : Bytes := writeLong (dt.inTimezone .utc) ++ utf8 " GMT"

def writeFormat (dt : DateTime) : Format → Bytes
  | .rfc3339 => writeIso dt true false
  | .rfc9557 => writeIso dt true true
  | .iso8601 => writeIso dt false false
  | .rfc2822 => writeRfc2822 dt
  | .httpDate => writeHttpDate dt
  | .dateOnly => writeDate dt
  | .timeOnly => writeTime dt

def display (dt : DateTime) (format : Format) : Bytes :=
  match formatInto (List.replicate MAX_FORMATTED_LENGTH 0) dt format with
  | (some len, buffer) => buffer.take len
  | (none, _) => writeFormat dt format

def DateTime.tryFormat (dt : DateTime) (format : Format) : Except Error Bytes :=
  if format ≠ .timeOnly ∧ ¬(0 ≤ dt.year ∧ dt.year ≤ 9999) then
    .error ⟨.outOfRange, "value cannot be represented in the requested format"⟩
  else if (format = .rfc3339 ∨ format = .rfc9557 ∨ format = .iso8601 ∨ format = .rfc2822) ∧
      dt.offset.tmod 60 ≠ 0 then
    .error ⟨.outOfRange, "offset cannot be represented in the requested format"⟩
  else .ok (display dt format)

end Stdx.Time
