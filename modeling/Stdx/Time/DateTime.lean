import Stdx.Time.TimeZone

/-!
# Instants with a zone

The `DateTime` of `time/datetime.rs`.  The optional reading of the monotonic clock takes
no part in formatting and parsing.
-/

namespace Stdx.Time

open Stdx.Foundation

def MIN_YEAR : Int := -9999
def MAX_YEAR : Int := 9999

def MIN_SECS : Int := daysFromCivil MIN_YEAR 1 1 * SECS_PER_DAY
def MAX_SECS : Int := daysFromCivil MAX_YEAR 12 31 * SECS_PER_DAY + (SECS_PER_DAY - 1)

inductive Weekday where
  | monday
  | tuesday
  | wednesday
  | thursday
  | friday
  | saturday
  | sunday
deriving DecidableEq

def Weekday.fromIndex (index : Nat) : Weekday :=
  match index with
  | 0 => .monday
  | 1 => .tuesday
  | 2 => .wednesday
  | 3 => .thursday
  | 4 => .friday
  | 5 => .saturday
  | _ => .sunday

def Weekday.shortName : Weekday → Bytes
  | .monday => utf8 "Mon"
  | .tuesday => utf8 "Tue"
  | .wednesday => utf8 "Wed"
  | .thursday => utf8 "Thu"
  | .friday => utf8 "Fri"
  | .saturday => utf8 "Sat"
  | .sunday => utf8 "Sun"

abbrev Nanos := Fin 1000000000

instance neZero_nanos : NeZero 1000000000 := ⟨by decide⟩

theorem zero_supported : MIN_SECS ≤ 0 ∧ 0 ≤ MAX_SECS := by decide

structure DateTime where
  secs : Int
  nanos : Nanos
  offset : Int
  zone : TimeZone
  supported : MIN_SECS ≤ secs ∧ secs ≤ MAX_SECS
  offset_eq : offset = zone.offsetAt secs

structure Parts where
  year : Int
  month : Nat
  day : Nat
  hour : Nat
  minute : Nat
  second : Nat
  nanos : Nat
deriving DecidableEq

namespace DateTime

def fromRawChecked (secs : Int) (nanos : Nanos) (zone : TimeZone) : Except Error DateTime :=
  if h : MIN_SECS ≤ secs ∧ secs ≤ MAX_SECS then
    .ok ⟨secs, nanos, zone.offsetAt secs, zone, h, rfl⟩
  else .error ⟨.outOfRange, "instant is outside the supported range"⟩

def inTimezone (dt : DateTime) (zone : TimeZone) : DateTime :=
  ⟨dt.secs, dt.nanos, zone.offsetAt dt.secs, zone, dt.supported, rfl⟩

def timezoneName (dt : DateTime) : Option Bytes := dt.zone.annotationName

def parts (dt : DateTime) : Parts :=
  let localSecs := dt.secs + dt.offset
  let days := localSecs / SECS_PER_DAY
  let seconds := localSecs % SECS_PER_DAY
  let date := civilFromDays days
  ⟨date.1, date.2.1, date.2.2, (seconds / 3600).toNat, (seconds % 3600 / 60).toNat,
    (seconds % 60).toNat, dt.nanos⟩

def year (dt : DateTime) : Int := dt.parts.year

def weekday (dt : DateTime) : Weekday :=
  Weekday.fromIndex (weekdayFromDays ((dt.secs + dt.offset) / SECS_PER_DAY))

theorem parts_time (dt : DateTime) :
    dt.parts.hour < 24 ∧ dt.parts.minute < 60 ∧ dt.parts.second < 60 ∧
      dt.parts.nanos < 1000000000 := by
  simp only [parts, SECS_PER_DAY]
  omega

theorem parts_date (dt : DateTime) : IsDate dt.parts.year dt.parts.month dt.parts.day :=
  isDate_civilFromDays _

theorem parts_local (dt : DateTime) :
    daysFromCivil dt.parts.year dt.parts.month dt.parts.day * SECS_PER_DAY +
      dt.parts.hour * 3600 + dt.parts.minute * 60 + dt.parts.second = dt.secs + dt.offset := by
  have hdays : daysFromCivil dt.parts.year dt.parts.month dt.parts.day =
      (dt.secs + dt.offset) / SECS_PER_DAY := daysFromCivil_civilFromDays _
  rw [hdays]
  simp only [parts, SECS_PER_DAY]
  omega

theorem year_utc (dt : DateTime) :
    -9999 ≤ (dt.inTimezone .utc).parts.year ∧ (dt.inTimezone .utc).parts.year ≤ 9999 := by
  obtain ⟨hmin, hmax⟩ := dt.supported
  have hminDay : daysFromCivil MIN_YEAR 1 1 = -4371587 := by decide
  have hmaxDay : daysFromCivil MAX_YEAR 12 31 = 2932896 := by decide
  rw [MIN_SECS, hminDay, SECS_PER_DAY] at hmin
  rw [MAX_SECS, hmaxDay, SECS_PER_DAY] at hmax
  have hdays : (dt.inTimezone .utc).parts.year = (civilFromDays (dt.secs / 86400)).1 := by
    simp [parts, inTimezone, TimeZone.offsetAt]
  rw [hdays]
  exact year_of_supported_day (by omega) (by omega)

end DateTime

end Stdx.Time
