import Stdx.Time.Tzdb

/-!
# Time zones

`time/timezone.rs`: the offset of a zone at an instant, and the instants of a local time.
A zone is UTC, a fixed offset or an entry of the database.
-/

namespace Stdx.Time

open Stdx.Foundation

inductive ErrorKind where
  | parse
  | outOfRange
  | invalid
  | ambiguous
  | unknownTimeZone
  | offsetConflict
  | unknownSystemTimeZone
  | bufferTooSmall
deriving DecidableEq

structure Error where
  kind : ErrorKind
  message : String
deriving DecidableEq

inductive Disambiguation where
  | compatible
  | earlier
  | later
  | reject
deriving DecidableEq

inductive Ambiguity where
  | exact (offset : Int)
  | fold (earlier later : Int)
  | gap (before after : Int)
deriving DecidableEq

def PROBE : Int := 2 * SECS_PER_DAY

/-- An offset that `TimeZone::fixed` accepts. -/
structure FixedOffset where
  seconds : Int
  allowed : -OFFSET_LIMIT ≤ seconds ∧ seconds ≤ OFFSET_LIMIT

inductive TimeZone where
  | utc
  | fixedZone (offset : FixedOffset)
  | named (entry : ZoneEntry)

/-- The sources of named zones: the table of the database, and the system zone. -/
structure ZoneSource where
  lookup : Bytes → Option ZoneEntry
  system : Except Error TimeZone

def ZoneRules.infoAt (rules : ZoneRules) (secs : Int) : Option ZoneInfo :=
  match rules with
  | .embedded zone => some (zone.lookup secs)
  | .runtime tzif => tzif.1.lookup secs

def ZoneRules.offsetAt (rules : ZoneRules) (secs : Int) : Int :=
  match rules.infoAt secs with
  | some info => info.offset
  | none => 0

/-- The closure `consider`: take the transition if it is nearer than the best so far. -/
def ZoneData.consider (zone : ZoneData) (localSecs : Int) (best : Nat × Int) (index : Nat) :
    Nat × Int :=
  match zone.starts[index]? with
  | none => best
  | some start =>
    if distance start localSecs < best.2 then (index, distance start localSecs) else best

def ZoneData.nearest (zone : ZoneData) (localSecs : Int) : Nat × Int :=
  let past := partitionPoint (fun start => start ≤ localSecs) zone.starts
  let best := (0, I64_MAX)
  let best := if past = 0 then best else zone.consider localSecs best (past - 1)
  zone.consider localSecs best past

def embeddedNearby (zone : ZoneData) (localSecs : Int) : Option (Int × Int) :=
  if zone.starts = [] then none
  else
    let (bestIndex, bestDistance) := zone.nearest localSecs
    if bestDistance > 2 * OFFSET_LIMIT then none
    else
      let after := (zone.recordAt bestIndex).offset
      let before :=
        if bestIndex = 0 then zone.initial.offset else (zone.recordAt (bestIndex - 1)).offset
      some (before, after)

def ZoneRules.nearby (rules : ZoneRules) (localSecs : Int) : Option (Int × Int) :=
  match rules with
  | .embedded zone => embeddedNearby zone localSecs
  | .runtime tzif => tzif.1.nearbyOffsets localSecs

def ZoneRules.candidateOffsets (rules : ZoneRules) (localSecs : Int) : Int × Int :=
  match rules.nearby localSecs with
  | some pair => pair
  | none => (rules.offsetAt (localSecs - PROBE), rules.offsetAt (localSecs + PROBE))

namespace TimeZone

/-- `TimeZone::fixed` -/
def fixed (offset : Int) : Except Error TimeZone :=
  if h : offset < -OFFSET_LIMIT ∨ offset > OFFSET_LIMIT then
    .error ⟨.outOfRange, "UTC offset is outside the supported range"⟩
  else .ok (.fixedZone ⟨offset, by omega⟩)

def toAsciiLowercase (octet : UInt8) : UInt8 :=
  if 65 ≤ octet && octet ≤ 90 then octet + 32 else octet

def eqIgnoreAsciiCase (a b : Bytes) : Bool := a.map toAsciiLowercase == b.map toAsciiLowercase

/-- `TimeZone::named` -/
def ofName (source : ZoneSource) (name : Bytes) : Except Error TimeZone :=
  if eqIgnoreAsciiCase name (utf8 "z") then .ok .utc
  else if eqIgnoreAsciiCase name (utf8 "local") then source.system
  else
    match source.lookup name with
    | some entry => .ok (.named entry)
    | none => .error ⟨.unknownTimeZone, "unknown time zone"⟩

def annotationName : TimeZone → Option Bytes
  | .named entry => some entry.name
  | _ => none

def offsetAt (zone : TimeZone) (secs : Int) : Int :=
  match zone with
  | .utc => 0
  | .fixedZone offset => offset.seconds
  | .named entry => entry.rules.offsetAt secs

def resolveWith (zone : TimeZone) (localSecs : Int) (disambiguation : Disambiguation) :
    Except Error Int :=
  match zone with
  | .utc => .ok localSecs
  | .fixedZone offset => .ok (localSecs - offset.seconds)
  | .named entry =>
    let (offsetBefore, offsetAfter) := entry.rules.candidateOffsets localSecs
    if offsetBefore = offsetAfter then .ok (localSecs - offsetBefore)
    else
      let instantBefore := localSecs - offsetBefore
      let instantAfter := localSecs - offsetAfter
      let beforeOk := decide (entry.rules.offsetAt instantBefore = offsetBefore)
      let afterOk := decide (entry.rules.offsetAt instantAfter = offsetAfter)
      match beforeOk, afterOk with
      | true, true =>
        match disambiguation with
        | .later => .ok instantAfter
        | .reject => .error ⟨.ambiguous, "civil time occurs twice in this time zone"⟩
        | _ => .ok instantBefore
      | true, false => .ok instantBefore
      | false, true => .ok instantAfter
      | false, false =>
        match disambiguation with
        | .reject => .error ⟨.ambiguous, "civil time does not exist in this time zone"⟩
        | _ => .ok instantBefore

def resolveCompatible (zone : TimeZone) (localSecs : Int) : Int :=
  match zone.resolveWith localSecs .compatible with
  | .ok instant => instant
  | .error _ => localSecs

def classify (zone : TimeZone) (localSecs : Int) : Ambiguity :=
  match zone with
  | .utc => .exact 0
  | .fixedZone offset => .exact offset.seconds
  | .named entry =>
    let (offsetBefore, offsetAfter) := entry.rules.candidateOffsets localSecs
    if offsetBefore = offsetAfter then .exact offsetBefore
    else
      let instantBefore := localSecs - offsetBefore
      let instantAfter := localSecs - offsetAfter
      let beforeOk := decide (entry.rules.offsetAt instantBefore = offsetBefore)
      let afterOk := decide (entry.rules.offsetAt instantAfter = offsetAfter)
      match beforeOk, afterOk with
      | true, true => .fold offsetBefore offsetAfter
      | true, false => .exact offsetBefore
      | false, true => .exact offsetAfter
      | false, false => .gap offsetBefore offsetAfter

end TimeZone

end Stdx.Time
