import Stdx.Time.Tzif

/-!
# The embedded database

The rules of one zone in `time/tzdb.rs`.  A record holds the abbreviation that the index
of the source stands for.
-/

namespace Stdx.Time

open Stdx.Foundation

structure Record where
  offset : Int
  dst : Bool
  abbreviation : Bytes
deriving DecidableEq

inductive Future where
  | fixed (record : Record)
  | daylightSaving (standard daylight : Record) (start finish : Nat × Int)

/-- The static data of a zone, as the generator writes it. -/
structure ZoneData where
  initial : Record
  starts : List Int
  records : List Nat
  recordTable : List Record
  future : Future
  starts_increasing : starts.Pairwise (· < ·)
  records_length : records.length = starts.length
  records_lt : ∀ record ∈ records, record < recordTable.length

abbrev ParsedTzif := { tzif : Tzif // ∃ data, Tzif.parse data = some tzif }

inductive ZoneRules where
  | embedded (zone : ZoneData)
  | runtime (tzif : ParsedTzif)

structure ZoneEntry where
  name : Bytes
  rules : ZoneRules

def recordInfo (record : Record) : ZoneInfo := ⟨record.offset, record.dst, record.abbreviation⟩

def partitionPoint {α : Type} (p : α → Bool) (xs : List α) : Nat := xs.findIdx fun x => !p x

namespace ZoneData

def recordAt (zone : ZoneData) (index : Nat) : Record :=
  zone.recordTable.getD (zone.records.getD index 0) zone.initial

def futureInfo (zone : ZoneData) (seconds : Int) : ZoneInfo :=
  match zone.future with
  | .fixed record => recordInfo record
  | .daylightSaving standard daylight start finish =>
    evaluateDaylight
      ⟨daylight.abbreviation, daylight.offset,
        (daylightRuleFromPackedDay start.1, start.2),
        (daylightRuleFromPackedDay finish.1, finish.2)⟩
      standard.offset standard.abbreviation seconds

def lookup (zone : ZoneData) (seconds : Int) : ZoneInfo :=
  if zone.starts = [] then zone.futureInfo seconds
  else
    let past := partitionPoint (fun start => start ≤ seconds) zone.starts
    if past = 0 then recordInfo zone.initial
    else if past = zone.starts.length then zone.futureInfo seconds
    else recordInfo (zone.recordAt (past - 1))

end ZoneData

end Stdx.Time
