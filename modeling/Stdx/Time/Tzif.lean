import Stdx.Foundation.Loop
import Stdx.Foundation.Utf8
import Stdx.Time.Posix

/-!
# TZif images

The reader of `time/tzif.rs`.  Lengths are those of a 64-bit target, where the checked
sums of the source cannot overflow.
-/

namespace Stdx.Time

open Stdx.Foundation

abbrev OFFSET_LIMIT : Int := 93599

abbrev I64_MIN : Int := -9223372036854775808
abbrev I64_MAX : Int := 9223372036854775807

def signed (bits : Nat) (n : Nat) : Int :=
  if n < 2 ^ (bits - 1) then n else (n : Int) - 2 ^ bits

/-- `(a - b).abs()` on `i64` in a release build; a debug build panics where it wraps. -/
def distance (a b : Int) : Int := Int.bmod |Int.bmod (a - b) (2 ^ 64)| (2 ^ 64)

structure Header where
  leapcnt : Nat
  timecnt : Nat
  typecnt : Nat
  charcnt : Nat
  isstdcnt : Nat
  isutcnt : Nat

def Header.blockLen (header : Header) (timeSize : Nat) : Nat :=
  header.timecnt * timeSize + header.timecnt + header.typecnt * 6 + header.charcnt +
    header.leapcnt * (timeSize + 4) + header.isstdcnt + header.isutcnt

structure Tzif where
  timeSize : Nat
  timecnt : Nat
  typecnt : Nat
  transitions : Bytes
  transitionTypes : Bytes
  types : Bytes
  designations : Bytes
  footer : Bytes
deriving DecidableEq

/-- `data.get(start..stop)` -/
def getRange (data : Bytes) (start stop : Nat) : Option Bytes :=
  if stop ≤ data.length then some (slice data start stop) else none

def beU32 (data : Bytes) (offset : Nat) : Option Nat :=
  (getRange data offset (offset + 4)).map beValue

def beI32 (data : Bytes) (offset : Nat) : Option Int := (beU32 data offset).map (signed 32)

def beI64 (data : Bytes) (offset : Nat) : Option Int :=
  (getRange data offset (offset + 8)).map fun bytes => signed 64 (beValue bytes)

def readHeader (data : Bytes) (offset : Nat) : Option Header := do
  let isutcnt ← beU32 data (offset + 20)
  let isstdcnt ← beU32 data (offset + 24)
  let leapcnt ← beU32 data (offset + 28)
  let timecnt ← beU32 data (offset + 32)
  let typecnt ← beU32 data (offset + 36)
  let charcnt ← beU32 data (offset + 40)
  some ⟨leapcnt, timecnt, typecnt, charcnt, isstdcnt, isutcnt⟩

def MAGIC : Bytes := [84, 90, 105, 102]

def timeAt (transitions : Bytes) (timeSize index : Nat) : Option Int :=
  if timeSize = 8 then beI64 transitions (index * timeSize)
  else beI32 transitions (index * timeSize)

def increasing (transitions : Bytes) (timeSize : Nat) : Nat → Nat → Int → Bool
  | 0, _, _ => true
  | count + 1, index, previous =>
    match timeAt transitions timeSize index with
    | none => false
    | some value =>
      if value ≤ previous then false
      else increasing transitions timeSize count (index + 1) value

def hasAbbreviation (types designations : Bytes) (index : Nat) : Bool :=
  match types[index * 6 + 5]? with
  | none => false
  | some designation =>
    designation.toNat ≤ designations.length &&
      (designations.drop designation.toNat).contains 0

def dataBlock (data : Bytes) : Option (Nat × Nat × UInt8) :=
  match data[4]? with
  | none => none
  | some version =>
    if version ≥ 50 then do
      let first ← readHeader data 0
      let headerOffset := 44 + first.blockLen 4
      if data.length < headerOffset + 44 then none
      else if slice data headerOffset (headerOffset + 4) ≠ MAGIC then none
      else some (headerOffset, 8, version)
    else some (0, 4, 49)

def readFooter (data : Bytes) (blockEnd : Nat) (version : UInt8) : Option Bytes :=
  if version ≥ 50 then do
    let content ← stripPrefix 10 (data.drop blockEnd)
    let stop := content.findIdx (· == 10)
    if stop < content.length then some (content.take stop) else none
  else some []

def Tzif.parse (data : Bytes) : Option Tzif := do
  if data.length < 44 ∨ data.take 4 ≠ MAGIC then none
  else
    let (headerOffset, timeSize, version) ← dataBlock data
    let header ← readHeader data headerOffset
    if header.typecnt = 0 ∨ header.charcnt = 0 then none
    else
      let blockOffset := headerOffset + 44
      let blockEnd := blockOffset + header.blockLen timeSize
      if data.length < blockEnd then none
      else
        let block := slice data blockOffset blockEnd
        let cursor := header.timecnt * timeSize
        let transitions ← getRange block 0 cursor
        let transitionTypes ← getRange block cursor (cursor + header.timecnt)
        let cursor := cursor + header.timecnt
        let types ← getRange block cursor (cursor + header.typecnt * 6)
        let cursor := cursor + header.typecnt * 6
        let designations ← getRange block cursor (cursor + header.charcnt)
        if increasing transitions timeSize header.timecnt 0 I64_MIN = false then none
        else if transitionTypes.any fun index => index.toNat ≥ header.typecnt then none
        else if (List.range header.typecnt).any
            fun index => !hasAbbreviation types designations index then none
        else
          let footer ← readFooter data blockEnd version
          some ⟨timeSize, header.timecnt, header.typecnt, transitions, transitionTypes, types,
            designations, footer⟩

namespace Tzif

def transitionAt (tz : Tzif) (index : Nat) : Int :=
  if tz.timeSize = 8 then (beI64 tz.transitions (index * tz.timeSize)).getD I64_MIN
  else (beI32 tz.transitions (index * tz.timeSize)).getD (-2147483648)

def abbreviation (tz : Tzif) (index : Nat) : Option Bytes :=
  if index ≤ tz.designations.length then
    let bytes := tz.designations.drop index
    let stop := bytes.findIdx (· == 0)
    if stop < bytes.length then
      some (match fromUtf8 (bytes.take stop) with
        | some _ => bytes.take stop
        | none => [])
    else none
  else none

def infoForType (tz : Tzif) (index : Nat) : Option ZoneInfo := do
  if index ≥ tz.typecnt then none
  else
    let offset ← beI32 tz.types (index * 6)
    let dst ← tz.types[index * 6 + 4]?
    let designation ← tz.types[index * 6 + 5]?
    let abbreviation ← tz.abbreviation designation.toNat
    some ⟨offset, dst ≠ 0, abbreviation⟩

def halve (tz : Tzif) (target : Int) (range : Nat × Nat) : Nat × Nat :=
  let mid := (range.1 + range.2) / 2
  if tz.transitionAt mid ≤ target then (mid, range.2) else (range.1, mid)

def search (tz : Tzif) (target : Int) : Nat :=
  (whileLoop (fun (range : Nat × Nat) => range.1 + 1 < range.2) (tz.halve target)
    (tz.timecnt + 1) (0, tz.timecnt)).1

def typeAt (tz : Tzif) (index : Nat) : Option ZoneInfo := do
  let type ← tz.transitionTypes[index]?
  tz.infoForType type.toNat

def nearest (tz : Tzif) (localSecs : Int) : Nat × Int :=
  let low := tz.search localSecs
  let bestDistance := distance (tz.transitionAt low) localSecs
  if low + 1 < tz.timecnt then
    let next := distance (tz.transitionAt (low + 1)) localSecs
    if next < bestDistance then (low + 1, next) else (low, bestDistance)
  else (low, bestDistance)

def nearbyOffsets (tz : Tzif) (localSecs : Int) : Option (Int × Int) := do
  if tz.timecnt = 0 then none
  else
    let (best, bestDistance) := tz.nearest localSecs
    if bestDistance > 2 * OFFSET_LIMIT then none
    else
      let after ← tz.typeAt best
      let before ← if best = 0 then tz.infoForType 0 else tz.typeAt (best - 1)
      some (before.offset, after.offset)

/-- The rule of the footer; `none` is the failure of a footer that is not UTF-8. -/
def footerDst (tz : Tzif) : Option (Option PosixTz) :=
  if tz.footer = [] then some none
  else
    match fromUtf8 tz.footer with
    | none => none
    | some _ => some (PosixTz.parse tz.footer)

def lookup (tz : Tzif) (secs : Int) : Option ZoneInfo := do
  let footerDst ← tz.footerDst
  if tz.timecnt = 0 then
    match footerDst with
    | some dst => some (dst.lookup secs)
    | none => tz.infoForType 0
  else if secs < tz.transitionAt 0 then tz.infoForType 0
  else
    let low := tz.search secs
    match footerDst with
    | some dst => if low = tz.timecnt - 1 then some (dst.lookup secs) else tz.typeAt low
    | none => tz.typeAt low

end Tzif

end Stdx.Time
