import Mathlib
import Stdx.Time.DateTime

/-!
# Instants of counts and of civil times

`from_unix_nanos`, `from_unix` and `from_parts_with` of `time/datetime.rs`, and the check
of civil fields that `from_parts_with` makes.
-/

namespace Stdx.Time

def localSecondsChecked (year : Int) (month day hour minute second : Nat) : Except Error Int :=
  if ¬(MIN_YEAR ≤ year ∧ year ≤ MAX_YEAR) then
    .error ⟨.outOfRange, "year is outside the supported range"⟩
  else if ¬(1 ≤ month ∧ month ≤ 12) then .error ⟨.invalid, "month is not in 1..=12"⟩
  else if day < 1 ∨ day > daysInMonth year month then
    .error ⟨.invalid, "day is not valid for the given month"⟩
  else if hour > 23 then .error ⟨.invalid, "hour is not in 0..=23"⟩
  else if minute > 59 then .error ⟨.invalid, "minute is not in 0..=59"⟩
  else if second > 60 then .error ⟨.invalid, "second is not in 0..=60"⟩
  else
    let second := if second = 60 then 59 else second
    .ok (daysFromCivil year month day * SECS_PER_DAY + hour * 3600 + minute * 60 + second)

namespace DateTime

/-- The quotient and the remainder are `div_euclid` and `rem_euclid`. -/
def fromUnixNanos (nanoseconds : Int) : Except Error DateTime :=
  let seconds := nanoseconds / 1000000000
  if I64_MIN ≤ seconds ∧ seconds ≤ I64_MAX then
    fromRawChecked seconds (Fin.ofNat _ (nanoseconds % 1000000000).toNat) .utc
  else .error ⟨.outOfRange, "instant is outside the supported range"⟩

def fromUnix (seconds : Int) : Except Error DateTime :=
  fromUnixNanos (seconds * 1000000000)

def fromPartsWith (year : Int) (month day hour minute second nanosecond : Nat) (zone : TimeZone)
    (disambiguation : Disambiguation) : Except Error DateTime :=
  if h : nanosecond < NANOS_PER_SEC then do
    let localSecs ← localSecondsChecked year month day hour minute second
    let instant ← zone.resolveWith localSecs disambiguation
    fromRawChecked instant ⟨nanosecond, h⟩ zone
  else .error ⟨.invalid, "nanosecond is not in 0..1_000_000_000"⟩

theorem fromRawChecked_zone {secs : Int} {nanos : Nanos} {zone : TimeZone} {dt : DateTime}
    (h : fromRawChecked secs nanos zone = .ok dt) : dt.zone = zone := by
  unfold fromRawChecked at h
  split at h
  · obtain rfl := Except.ok.inj h
    rfl
  · cases h

theorem fromUnixNanos_eq (nanoseconds : Int) :
    fromUnixNanos nanoseconds = fromRawChecked (nanoseconds / 1000000000)
      (Fin.ofNat _ (nanoseconds % 1000000000).toNat) .utc := by
  have hmin : I64_MIN ≤ MIN_SECS := by decide
  have hmax : MAX_SECS ≤ I64_MAX := by decide
  simp only [fromUnixNanos]
  split
  · rfl
  · next h =>
    rw [fromRawChecked, dif_neg]
    rintro ⟨hlow, hhigh⟩
    exact h ⟨hmin.trans hlow, hhigh.trans hmax⟩

theorem fromUnixNanos_zone {nanoseconds : Int} {dt : DateTime}
    (h : fromUnixNanos nanoseconds = .ok dt) : dt.zone = .utc := by
  rw [fromUnixNanos_eq] at h
  exact fromRawChecked_zone h

theorem fromUnixNanos_ok_iff (nanoseconds : Int) :
    (∃ dt, fromUnixNanos nanoseconds = .ok dt) ↔
      MIN_SECS ≤ nanoseconds / 1000000000 ∧ nanoseconds / 1000000000 ≤ MAX_SECS := by
  rw [fromUnixNanos_eq, fromRawChecked]
  split
  · next h => simp [h]
  · next h => simp [h]

theorem localSecondsChecked_parts {dt : DateTime} (hzone : dt.zone = .utc) :
    localSecondsChecked dt.parts.year dt.parts.month dt.parts.day dt.parts.hour dt.parts.minute
      dt.parts.second = .ok dt.secs := by
  obtain ⟨hmonth, hmonth', hday, hday'⟩ := dt.parts_date
  obtain ⟨hhour, hminute, hsecond, -⟩ := dt.parts_time
  have hoffset : dt.offset = 0 := by rw [dt.offset_eq, hzone, TimeZone.offsetAt]
  have hsame : (dt.inTimezone .utc).parts = dt.parts := by
    simp only [parts, inTimezone, TimeZone.offsetAt, hoffset]
  have hyear := dt.year_utc
  rw [hsame] at hyear
  have hsecond' : (if dt.parts.second = 60 then 59 else dt.parts.second) = dt.parts.second :=
    if_neg (by omega)
  unfold localSecondsChecked
  rw [if_neg (by simpa only [MIN_YEAR, MAX_YEAR, not_not] using hyear), if_neg (by omega),
    if_neg (by omega), if_neg (by omega), if_neg (by omega), if_neg (by omega)]
  simp only [hsecond', dt.parts_local, hoffset, Int.add_zero]

theorem fromPartsWith_parts {dt : DateTime} (hzone : dt.zone = .utc)
    (disambiguation : Disambiguation) :
    fromPartsWith dt.parts.year dt.parts.month dt.parts.day dt.parts.hour dt.parts.minute
      dt.parts.second dt.parts.nanos .utc disambiguation = .ok dt := by
  obtain ⟨-, -, -, hnanos⟩ := dt.parts_time
  unfold fromPartsWith
  rw [dif_pos hnanos, localSecondsChecked_parts hzone]
  simp only [bind, Except.bind, TimeZone.resolveWith, fromRawChecked, dif_pos dt.supported]
  obtain ⟨secs, nanos, offset, zone, hsupported, hoffset⟩ := dt
  dsimp only at hzone
  subst hzone hoffset
  rfl

end DateTime

end Stdx.Time
