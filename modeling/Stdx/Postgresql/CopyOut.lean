import Stdx.Foundation.Outcome
import Stdx.Postgresql.CopyIn

/-!
# Binary `COPY ... TO STDOUT`

`CopyOut` of `postgresql/copy.rs` over the chunks its channel still holds, which is closed
behind them.  What `T::from_copy_row` makes of the fields of a row is a parameter.
-/

namespace Stdx.Postgresql

open Stdx.Foundation

structure RowLimit (T : Target) where
  bytes : Nat
  fits : bytes < 2 ^ T.usizeBits

/-- `i32::from_be_bytes` of the four octets from `pos` on. -/
def readI32 (buf : Bytes) (pos : Nat) : Int :=
  let value := beValue ((buf.drop pos).take 4)
  if value < 2 ^ 31 then value else value - 2 ^ 32

/-- `i16::from_be_bytes` of the first two octets. -/
def readI16 (buf : Bytes) : Int :=
  let value := beValue (buf.take 2)
  if value < 2 ^ 15 then value else value - 2 ^ 16

structure CopyOut where
  pending : List (Except Error Bytes)
  buf : Bytes
  headerSkipped : Bool
  trailerSeen : Bool
  done : Bool

/-- `CopyOut::new` over a channel with these chunks. -/
def CopyOut.new (pending : List (Except Error Bytes)) : CopyOut :=
  ⟨pending, [], false, false, false⟩

section

variable {T : Target} (limit : RowLimit T)

def findEnd (buf : Bytes) : Nat → Nat → Outcome Error (Option Nat)
  | 0, pos => .ok (some pos)
  | count + 1, pos =>
    if buf.length < pos + 4 then .ok none
    else
      let rawLen := readI32 buf pos
      let pos := pos + 4
      if rawLen = -1 then findEnd buf count pos
      else if rawLen < 0 then .err (.decode s!"COPY field has an invalid length {rawLen}")
      else
        let len := rawLen.toNat
        let stop := pos + len
        if 2 ^ T.usizeBits ≤ stop then
          .err (.decode "binary COPY field length overflows the address space")
        else if limit.bytes < stop then
          .err (.decode
            s!"binary COPY field of {len} bytes exceeds the {limit.bytes} byte row limit")
        else if buf.length < stop then .ok none
        else findEnd buf count stop

def sliceFields (row : Bytes) : Nat → Nat → Outcome Error (List (Option Bytes))
  | 0, _ => .ok []
  | count + 1, p =>
    if row.length < p + 4 then .panic
    else
      let rawLen := readI32 row p
      let p := p + 4
      if rawLen = -1 then do
        let rest ← sliceFields row count p
        .ok (none :: rest)
      else if rawLen < 0 then .err (.decode s!"COPY field has an invalid length {rawLen}")
      else
        let len := rawLen.toNat
        if row.length < p + len then .panic
        else do
          let rest ← sliceFields row count (p + len)
          .ok (some ((row.drop p).take len) :: rest)

variable {τ : Type} (decode : List (Option Bytes) → Except Error τ)

def parseRow (s : CopyOut) (count : Nat) : Outcome Error (Option τ) × CopyOut :=
  match findEnd limit s.buf count 2 with
  | .err err => (.err err, s)
  | .panic => (.panic, s)
  | .ok none => (.ok none, s)
  | .ok (some pos) =>
    let row := s.buf.take pos
    let s := { s with buf := s.buf.drop pos }
    match sliceFields row count 2 with
    | .err err => (.err err, s)
    | .panic => (.panic, s)
    | .ok fields =>
      match decode fields with
      | .error err => (.err err, s)
      | .ok value => (.ok (some value), s)

def parseBody (s : CopyOut) : Outcome Error (Option τ) × CopyOut :=
  if s.buf.length < 2 then (.ok none, s)
  else
    let rawCount := readI16 s.buf
    if rawCount = -1 then
      (.ok none, { s with buf := s.buf.drop 2, trailerSeen := true, done := true })
    else if rawCount < 0 then
      (.err (.decode s!"COPY row has an invalid field count {rawCount}"), s)
    else parseRow limit decode s rawCount.toNat

def tryParse (s : CopyOut) : Outcome Error (Option τ) × CopyOut :=
  if s.headerSkipped then parseBody limit decode s
  else if s.buf.length < COPY_HEADER.length then (.ok none, s)
  else if s.buf.take COPY_HEADER.length ≠ COPY_HEADER then
    (.err (.decode "not a binary COPY stream (bad file header)"), s)
  else
    parseBody limit decode { s with buf := s.buf.drop COPY_HEADER.length, headerSkipped := true }

def trailingBytes (buf : Bytes) : Error :=
  .decode s!"binary COPY stream has {buf.length} trailing bytes after its trailer"

/-- One pass of the loop up to the channel; `none` waits for a chunk. -/
def attempt (s : CopyOut) : Option (Outcome Error (Option τ)) × CopyOut :=
  match tryParse limit decode s with
  | (.ok (some row), s) => (some (.ok (some row)), s)
  | (.err err, s) => (some (.err err), s)
  | (.panic, s) => (some .panic, s)
  | (.ok none, s) =>
    if s.done then
      (some (if s.buf ≠ [] then .err (trailingBytes s.buf) else .ok none), s)
    else (none, s)

def closed (s : CopyOut) : Outcome Error (Option τ) × CopyOut :=
  let s := { s with done := true }
  if ¬ s.trailerSeen then
    (.err (.decode "binary COPY stream ended before its trailer (truncated or malformed)"), s)
  else if s.buf ≠ [] then (.err (trailingBytes s.buf), s)
  else
    match attempt limit decode s with
    | (some result, s) => (result, s)
    | (none, s) => (.panic, s)

def nextFrom : List (Except Error Bytes) → CopyOut → Outcome Error (Option τ) × CopyOut
  | [], s =>
    match attempt limit decode s with
    | (some result, s) => (result, { s with pending := [] })
    | (none, s) => closed limit decode { s with pending := [] }
  | chunk :: rest, s =>
    match attempt limit decode s with
    | (some result, s) => (result, { s with pending := chunk :: rest })
    | (none, s) =>
      match chunk with
      | .ok bytes => nextFrom rest { s with buf := s.buf ++ bytes }
      | .error err => (.err err, { s with pending := rest, done := true })

def CopyOut.next (s : CopyOut) : Outcome Error (Option τ) × CopyOut :=
  nextFrom limit decode s.pending s

def CopyOut.after (s : CopyOut) : Nat → CopyOut
  | 0 => s
  | count + 1 => ((CopyOut.after s count).next limit decode).2

def CopyOut.result (s : CopyOut) (count : Nat) : Outcome Error (Option τ) :=
  ((CopyOut.after limit decode s count).next limit decode).1

end

end Stdx.Postgresql
