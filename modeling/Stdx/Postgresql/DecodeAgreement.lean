import Stdx.Postgresql.DecodeSafety

/-!
# The two ways to decode a value

`COPY` decodes with `from_sql` and a row of a query with `from_sql_zoned`.  In UTC they
agree but for a `time`, which only the first compares with the length of a day.
-/

namespace Stdx.Postgresql

open Stdx.Foundation Stdx.Foundation.Outcome Stdx.Time

def Agree {α : Type} (a b : Outcome Error α) : Prop :=
  (∃ err err', a = .err err ∧ b = .err err') ∨ ∃ value, a = .ok value ∧ b = .ok value

namespace Agree

variable {α : Type}

theorem refl {a : Outcome Error α} (h : a.Returns fun _ => True) : Agree a a := by
  cases a with
  | ok value => exact .inr ⟨value, rfl, rfl⟩
  | err err => exact .inl ⟨err, err, rfl, rfl⟩
  | panic => exact h.elim

theorem err_right_iff {a : Outcome Error α} {err : Error} (h : a.Returns fun _ => True) :
    Agree a (.err err) ↔ ¬∃ value, a = .ok value := by
  cases a with
  | ok value => simp [Agree]
  | err err' => simp [Agree]
  | panic => exact h.elim

theorem mapSome_iff {a b : Outcome Error α} :
    Agree (FromSql.mapSome a) (FromSql.mapSome b) ↔ Agree a b := by
  cases a <;> cases b <;> simp [Agree, FromSql.mapSome]

end Agree

/-- The octets are a `time` that is none of a day, yet a supported instant after the epoch. -/
def SqlType.OutsideDay (oid : Oid) (buf : Bytes) : SqlType → Prop
  | dateTime =>
    let micros := readI64 buf 0
    oid = TIMEOID ∧ 8 ≤ buf.length ∧ ¬(0 ≤ micros ∧ micros < MICROS_PER_DAY) ∧
      MIN_SECS ≤ micros / 1000000 ∧ micros / 1000000 ≤ MAX_SECS
  | option t => t.OutsideDay oid buf
  | _ => False

namespace FromSql

theorem civilInZone_utc {naive : DateTime} (h : naive.zone = .utc) :
    civilInZone naive .utc = .ok naive := by
  rw [civilInZone, DateTime.fromPartsWith_parts h, liftTime]

/-- The civil fields of an instant that a count names are those of the instant itself. -/
theorem civilInZone_fromUnixNanos (nanoseconds : Int) :
    (do civilInZone (← liftTime (DateTime.fromUnixNanos nanoseconds)) .utc) =
      liftTime (DateTime.fromUnixNanos nanoseconds) := by
  cases hcount : DateTime.fromUnixNanos nanoseconds with
  | error err => rfl
  | ok naive => exact civilInZone_utc (DateTime.fromUnixNanos_zone hcount)

theorem dateTimeFromSqlZoned_utc {oid : Oid} (buf : Bytes) (h : oid ≠ TIMEOID) :
    dateTimeFromSqlZoned oid buf .utc = dateTimeFromSql oid buf := by
  unfold dateTimeFromSqlZoned dateTimeFromSql
  by_cases hstamp : oid = TIMESTAMPOID
  · subst hstamp
    simp only [fromPgMicros, civilInZone_fromUnixNanos]
    rfl
  by_cases hdate : oid = DATEOID
  · subst hdate
    simp only [DateTime.fromUnix, civilInZone_fromUnixNanos]
    rfl
  by_cases hzoned : oid = TIMESTAMPTZOID
  · subst hzoned
    rfl
  by_cases htimetz : oid = TIMETZOID
  · subst htimetz
    rfl
  simp only [hzoned, htimetz, hstamp, hdate, h, or_self, if_false]

theorem dateTimeFromSqlZoned_time (buf : Bytes) :
    dateTimeFromSqlZoned TIMEOID buf .utc = (do
      need buf 8 "time"
      liftTime (DateTime.fromUnixNanos ((← i64At buf 0) * 1000))) := by
  have hrun : dateTimeFromSqlZoned TIMEOID buf .utc = (do
      need buf 8 "time"
      let micros ← i64At buf 0
      civilInZone (← liftTime (DateTime.fromUnixNanos (micros * 1000))) .utc) := rfl
  simp only [hrun, civilInZone_fromUnixNanos]

theorem dateTimeFromSql_time (buf : Bytes) :
    dateTimeFromSql TIMEOID buf = (do
      need buf 8 "time"
      let micros ← i64At buf 0
      if ¬(0 ≤ micros ∧ micros < MICROS_PER_DAY) then
        .err (.decode ("time value " ++ toString micros ++ " is outside a single day"))
      else liftTime (DateTime.fromUnixNanos (micros * 1000))) := rfl

theorem liftTime_ok_iff {α : Type} (result : Except Time.Error α) :
    (∃ value, liftTime result = .ok value) ↔ ∃ value, result = .ok value := by
  cases result with
  | error err => simp [liftTime]
  | ok value => simp [liftTime]

theorem agree_dateTime_iff (oid : Oid) (buf : Bytes) :
    Agree (dateTimeFromSqlZoned oid buf .utc) (dateTimeFromSql oid buf) ↔
      ¬SqlType.OutsideDay oid buf .dateTime := by
  by_cases htime : oid = TIMEOID
  · subst htime
    rw [SqlType.OutsideDay]
    rw [dateTimeFromSqlZoned_time, dateTimeFromSql_time]
    by_cases hlong : 8 ≤ buf.length
    · have hscale : readI64 buf 0 * 1000 / 1000000000 = readI64 buf 0 / 1000000 := by omega
      have hread : i64At buf 0 = .ok (readI64 buf 0) := if_pos (by omega)
      have hneed : need buf 8 "time" = .ok () := if_neg (by omega)
      simp only [hneed, hread, Outcome.ok_bind]
      split
      · next houtside =>
        rw [Agree.err_right_iff (liftTime_total _), liftTime_ok_iff,
          DateTime.fromUnixNanos_ok_iff, hscale]
        simp only [hlong, houtside, true_and, not_false_eq_true]
      · next hinside =>
        simp only [hinside, false_and, and_false, not_false_eq_true, iff_true]
        exact Agree.refl (liftTime_total _)
    · have hneed : ∃ err, need buf 8 "time" = .err err := ⟨_, if_pos (by omega)⟩
      obtain ⟨err, hneed⟩ := hneed
      simp only [hneed, Outcome.err_bind, hlong, false_and, and_false, not_false_eq_true, iff_true]
      exact Agree.refl trivial
  · rw [dateTimeFromSqlZoned_utc buf htime]
    simp only [SqlType.OutsideDay, htime, false_and, not_false_eq_true, iff_true]
    exact Agree.refl (dateTimeFromSql_returns oid buf)

end FromSql

namespace SqlType

theorem agree_dateTime_iff (oid : Oid) (buf : Bytes) :
    Agree (dateTime.impl.fromSqlZoned oid buf .utc) (dateTime.impl.fromSql oid buf) ↔
      ¬OutsideDay oid buf .dateTime :=
  FromSql.agree_dateTime_iff oid buf

/-- Rows and `COPY` decode alike, but for a `time` outside a day. -/
theorem fromSqlZoned_agrees_iff (t : SqlType) (oid : Oid) (buf : Bytes) :
    Agree (t.impl.fromSqlZoned oid buf .utc) (t.impl.fromSql oid buf) ↔ ¬t.OutsideDay oid buf := by
  induction t with
  | dateTime => exact agree_dateTime_iff oid buf
  | option t ih =>
    rw [OutsideDay, ← ih]
    exact Agree.mapSome_iff
  | int2 | int4 | int8 | float4 | float8 | bool | text | bytea | uuid | json J codec | inet
  | interval | vec t =>
    simp only [OutsideDay, not_false_eq_true, iff_true]
    exact Agree.refl ((impl_total _).fromSql oid buf)

/-- `24:00:00`, which `from_sql` refuses, decodes as the next midnight. -/
theorem row_decodes_midnight :
    dateTime.impl.accepts TIMEOID = true ∧
      ¬Agree (dateTime.impl.fromSqlZoned TIMEOID [0, 0, 0, 20, 29, 215, 96, 0] .utc)
        (dateTime.impl.fromSql TIMEOID [0, 0, 0, 20, 29, 215, 96, 0]) := by
  have hmicros : readI64 [0, 0, 0, 20, 29, 215, 96, 0] 0 = 86400000000 := by
    simp [readI64, beValue]
  have houtside : OutsideDay TIMEOID [0, 0, 0, 20, 29, 215, 96, 0] .dateTime := by
    simp only [OutsideDay, hmicros]
    decide
  refine ⟨rfl, fun hagree => ?_⟩
  exact (agree_dateTime_iff TIMEOID [0, 0, 0, 20, 29, 215, 96, 0]).mp hagree houtside

end SqlType

end Stdx.Postgresql
