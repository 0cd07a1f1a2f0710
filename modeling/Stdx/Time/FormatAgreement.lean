import Mathlib
import Stdx.Time.Format

/-!
# The two formatters agree

The writer of each format emits the text of the format strings, as long as every number in
it has the digits that the writer reserves.  A displayed year of five digits and an offset
of a hundred hours do not fit; their writers fail whatever the buffer.
-/

namespace Stdx.Time

open Stdx.Foundation

/-! ## The pieces -/

theorem emits_year {year : Int} (h : -9999 ≤ year ∧ year ≤ 9999) :
    Emits (Buf.year year) (writeYear year) := by
  unfold Buf.year writeYear
  by_cases hpos : 0 ≤ year
  · rw [if_pos (by omega), if_pos (by omega)]
    exact emits_pad (by norm_num) (by omega)
  · simp only [if_neg (show ¬(0 ≤ year ∧ year ≤ 9999) by omega), if_pos (show year < 0 by omega)]
    exact (emits_writeAll (.cons (emits_byte 45)
      (.cons (emits_pad (by norm_num) (by omega)) .nil))).congr (by simp; rfl)

theorem fails_year {year : Int} (h : ¬(-9999 ≤ year ∧ year ≤ 9999)) : Fails (Buf.year year) := by
  unfold Buf.year
  rw [if_neg (by omega)]
  split
  · exact fails_writeAll (w := Foundation.Buf.pad (-year).toNat 4) (by simp)
      (fails_pad (by norm_num) (by omega))
  · exact fails_writeAll (w := Foundation.Buf.pad year.toNat 1) (by simp)
      (fails_pad (by norm_num) (by omega))

theorem emits_pad_two {n : Nat} (h : n < 100) :
    Emits (Foundation.Buf.pad n 2) (zeroPadded 2 n) :=
  emits_pad (by norm_num) h

theorem emits_sign (offset : Int) :
    Emits (Foundation.Buf.byte (Buf.sign offset)) (writeSign offset) := by
  unfold Buf.sign writeSign
  split
  · exact emits_byte 45
  · exact emits_byte 43

theorem emits_offset {offset : Int} (h : offset.natAbs < 360000) :
    Emits (Buf.offset offset) (writeOffset offset) := by
  have hhours := emits_pad_two (show offset.natAbs / 3600 < 100 by omega)
  have hminutes := emits_pad_two (show offset.natAbs % 3600 / 60 < 100 by omega)
  have hseconds := emits_pad_two (show offset.natAbs % 60 < 100 by omega)
  unfold Buf.offset writeOffset
  dsimp only
  split
  · exact (emits_writeAll (.cons (emits_sign offset) (.cons hhours (.cons (emits_byte 58)
      (.cons hminutes (.cons (emits_writeAll .nil) .nil)))))).congr (by simp; rfl)
  · exact (emits_writeAll (.cons (emits_sign offset) (.cons hhours (.cons (emits_byte 58)
      (.cons hminutes (.cons (emits_writeAll (.cons (emits_byte 58) (.cons hseconds .nil)))
        .nil)))))).congr (by simp; rfl)

theorem fails_hours {offset : Int} (h : ¬offset.natAbs < 360000) :
    Fails (Foundation.Buf.pad (offset.natAbs / 3600) 2) :=
  fails_pad (by norm_num) (by omega)

theorem emits_offsetCompact {offset : Int} (h : offset.natAbs < 360000) :
    Emits (Buf.offsetCompact offset) (writeOffsetCompact offset) :=
  (emits_writeAll (.cons (emits_sign offset) (.cons (emits_pad_two (by omega))
    (.cons (emits_pad_two (by omega)) .nil)))).congr (by simp [writeOffsetCompact])

theorem emits_fraction {nanos : Nat} (h : nanos < 1000000000) :
    Emits (Buf.fraction nanos) (writeFraction nanos) := by
  unfold Buf.fraction writeFraction
  split
  · exact emits_writeAll .nil
  · split
    · exact (emits_writeAll (.cons (emits_byte 46)
        (.cons (emits_pad (by norm_num) (by omega)) .nil))).congr (by simp; rfl)
    · split
      · exact (emits_writeAll (.cons (emits_byte 46)
          (.cons (emits_pad (by norm_num) (by omega)) .nil))).congr (by simp; rfl)
      · exact (emits_writeAll (.cons (emits_byte 46)
          (.cons (emits_pad (by norm_num) (by omega)) .nil))).congr (by simp; rfl)

theorem emits_clock {hour minute second : Nat} (hhour : hour < 24) (hminute : minute < 60)
    (hsecond : second < 60) :
    Emits (formatClock hour minute second) (writeClock hour minute second) :=
  (emits_writeAll (.cons (emits_pad_two (by omega)) (.cons (emits_byte 58)
    (.cons (emits_pad_two (by omega)) (.cons (emits_byte 58)
      (.cons (emits_pad_two (by omega)) .nil)))))).congr (by simp [writeClock]; rfl)

theorem month_day_lt (dt : DateTime) : dt.parts.month < 100 ∧ dt.parts.day < 100 := by
  obtain ⟨hlow, hhigh, -, hday⟩ := dt.parts_date
  have : daysInMonth dt.parts.year dt.parts.month ≤ 31 := by
    unfold daysInMonth
    split <;> first | omega | (split <;> omega)
  omega

theorem emits_day (dt : DateTime) (h : -9999 ≤ dt.parts.year ∧ dt.parts.year ≤ 9999) :
    Emits (formatDay dt.parts) (writeDate dt) := by
  obtain ⟨hmonth, hday⟩ := month_day_lt dt
  exact (emits_writeAll (.cons (emits_year h) (.cons (emits_byte 45)
    (.cons (emits_pad_two hmonth) (.cons (emits_byte 45)
      (.cons (emits_pad_two hday) .nil)))))).congr (by simp [writeDate, writeDay]; rfl)

theorem emits_zone (name : Option Bytes) : Emits (formatZone name) (writeZone name) := by
  cases name with
  | none => exact emits_writeAll .nil
  | some name =>
    exact (emits_writeAll (.cons (emits_byte 91) (.cons (emits_bytes name)
      (.cons (emits_byte 93) .nil)))).congr (by simp [writeZone]; rfl)

/-! ## The formats -/

theorem emits_iso (dt : DateTime) (zSuffix zone : Bool)
    (hyear : -9999 ≤ dt.parts.year ∧ dt.parts.year ≤ 9999) (hoffset : dt.offset.natAbs < 360000) :
    Emits (formatIso dt zSuffix zone) (writeIso dt zSuffix zone) := by
  obtain ⟨hhour, hminute, hsecond, hnanos⟩ := dt.parts_time
  have hsuffix : Emits (if zSuffix && dt.offset = 0 then Foundation.Buf.byte 90
      else Buf.offset dt.offset)
      (if zSuffix && dt.offset = 0 then utf8 "Z" else writeOffset dt.offset) := by
    split
    · exact emits_byte 90
    · exact emits_offset hoffset
  have hzone : Emits (if zone then formatZone dt.timezoneName else writeAll [])
      (if zone then writeZone dt.timezoneName else []) := by
    split
    · exact emits_zone _
    · exact emits_writeAll .nil
  exact (emits_writeAll (.cons (emits_day dt hyear) (.cons (emits_byte 84)
    (.cons (emits_clock hhour hminute hsecond) (.cons (emits_fraction hnanos)
      (.cons hsuffix (.cons hzone .nil))))))).congr (by simp [writeIso, writeDate]; rfl)

theorem emits_long (dt : DateTime) (hyear : -9999 ≤ dt.parts.year ∧ dt.parts.year ≤ 9999) :
    Emits (formatLong dt) (writeLong dt) := by
  obtain ⟨hhour, hminute, hsecond, -⟩ := dt.parts_time
  obtain ⟨-, hday⟩ := month_day_lt dt
  exact (emits_writeAll (.cons (emits_bytes _) (.cons (emits_bytes _)
    (.cons (emits_pad_two hday) (.cons (emits_byte 32) (.cons (emits_bytes _)
      (.cons (emits_byte 32) (.cons (emits_year hyear) (.cons (emits_byte 32)
        (.cons (emits_clock hhour hminute hsecond) .nil)))))))))).congr
          (by simp [writeLong]; rfl)

/-- The numbers of a format that have a fixed number of digits in the buffer have them. -/
def FitsDigits (dt : DateTime) (format : Format) : Prop :=
  match format with
  | .rfc3339 | .rfc9557 | .iso8601 | .rfc2822 =>
    (-9999 ≤ dt.year ∧ dt.year ≤ 9999) ∧ dt.offset.natAbs < 360000
  | .dateOnly => -9999 ≤ dt.year ∧ dt.year ≤ 9999
  | .httpDate | .timeOnly => True

theorem emits_format (dt : DateTime) {format : Format} (h : FitsDigits dt format) :
    Emits (formatWriter dt format) (writeFormat dt format) := by
  obtain ⟨hhour, hminute, hsecond, hnanos⟩ := dt.parts_time
  cases format with
  | rfc3339 => exact emits_iso dt true false h.1 h.2
  | rfc9557 => exact emits_iso dt true true h.1 h.2
  | iso8601 => exact emits_iso dt false false h.1 h.2
  | rfc2822 =>
    exact (emits_writeAll (.cons (emits_long dt h.1) (.cons (emits_byte 32)
      (.cons (emits_offsetCompact h.2) .nil)))).congr (by simp [writeFormat, writeRfc2822]; rfl)
  | httpDate =>
    exact (emits_writeAll (.cons (emits_long _ dt.year_utc) (.cons (emits_bytes _)
      .nil))).congr (by simp [writeFormat, writeHttpDate])
  | dateOnly => exact emits_day dt h
  | timeOnly =>
    exact (emits_writeAll (.cons (emits_clock hhour hminute hsecond)
      (.cons (emits_fraction hnanos) .nil))).congr (by simp [writeFormat, writeTime])

theorem fails_iso (dt : DateTime) (zSuffix zone : Bool)
    (h : ¬((-9999 ≤ dt.year ∧ dt.year ≤ 9999) ∧ dt.offset.natAbs < 360000)) :
    Fails (formatIso dt zSuffix zone) := by
  by_cases hyear : -9999 ≤ dt.year ∧ dt.year ≤ 9999
  · have hoffset : ¬dt.offset.natAbs < 360000 := fun hlt => h ⟨hyear, hlt⟩
    have hne : ¬((zSuffix && dt.offset = 0) = true) := by
      simp only [Bool.and_eq_true, decide_eq_true_eq, not_and]
      omega
    refine fails_writeAll (w := if zSuffix && dt.offset = 0 then Foundation.Buf.byte 90
      else Buf.offset dt.offset) (by simp) ?_
    rw [if_neg hne]
    exact fails_writeAll (by simp) (fails_hours hoffset)
  · exact fails_writeAll (w := formatDay dt.parts) (by simp)
      (fails_writeAll (by simp [DateTime.year]) (fails_year hyear))

theorem fails_format (dt : DateTime) {format : Format} (h : ¬FitsDigits dt format) :
    Fails (formatWriter dt format) := by
  cases format with
  | rfc3339 => exact fails_iso dt true false h
  | rfc9557 => exact fails_iso dt true true h
  | iso8601 => exact fails_iso dt false false h
  | rfc2822 =>
    by_cases hyear : -9999 ≤ dt.year ∧ dt.year ≤ 9999
    · have hoffset : ¬dt.offset.natAbs < 360000 := fun hlt => h ⟨hyear, hlt⟩
      exact fails_writeAll (w := Buf.offsetCompact dt.offset) (by simp)
        (fails_writeAll (by simp) (fails_hours hoffset))
    · exact fails_writeAll (w := formatLong dt) (by simp)
        (fails_writeAll (by simp [DateTime.year]) (fails_year hyear))
  | dateOnly => exact fails_writeAll (by simp [DateTime.year]) (fails_year h)
  | httpDate => exact absurd trivial h
  | timeOnly => exact absurd trivial h

/-- The buffer formatter writes the text of the other one into every buffer that holds it,
and fails, as too small, only on the buffers that do not. -/
structure Agrees (dt : DateTime) (format : Format) : Prop where
  some_iff : ∀ buffer, (∃ len, (formatInto buffer dt format).1 = some len) ↔
    (writeFormat dt format).length ≤ buffer.length
  text : ∀ buffer len, (formatInto buffer dt format).1 = some len →
    (formatInto buffer dt format).2.length = buffer.length ∧ len ≤ buffer.length ∧
      (formatInto buffer dt format).2.take len = writeFormat dt format
  too_small : ∀ buffer e, (writeTo dt format buffer).1 = .error e →
    e.kind = .bufferTooSmall ∧ buffer.length < (writeFormat dt format).length

theorem formatInto_of_emits {dt : DateTime} {format : Format} {buffer : Bytes}
    (h : Emits (formatWriter dt format) (writeFormat dt format)) :
    ((writeFormat dt format).length ≤ buffer.length →
      formatInto buffer dt format = (some (writeFormat dt format).length,
        ((⟨buffer, 0⟩ : Foundation.Buf).put (writeFormat dt format)).bytes)) ∧
      (buffer.length < (writeFormat dt format).length →
        (formatInto buffer dt format).1 = none) := by
  obtain ⟨hroom, hfull⟩ := h ⟨buffer, 0⟩ (Nat.zero_le _)
  simp only [Nat.zero_add] at hroom hfull
  unfold formatInto
  constructor
  · intro hlen
    rw [hroom hlen]
    simp
  · intro hlen
    simp [hfull hlen]

/-- The formatters agree exactly on the values whose numbers have the reserved digits. -/
theorem formatters_agree_iff (dt : DateTime) (format : Format) :
    Agrees dt format ↔ FitsDigits dt format := by
  constructor
  · intro h
    by_contra hfits
    have hfalse := fails_format dt hfits ⟨List.replicate (writeFormat dt format).length 0, 0⟩
    obtain ⟨len, hlen⟩ := (h.some_iff (List.replicate (writeFormat dt format).length 0)).mpr
      (by simp)
    simp [formatInto, hfalse] at hlen
  · intro hfits
    have hemits := emits_format dt hfits
    refine ⟨?_, ?_, ?_⟩
    · intro buffer
      obtain ⟨hroom, hfull⟩ := @formatInto_of_emits _ _ buffer hemits
      constructor
      · rintro ⟨len, hlen⟩
        by_contra hlt
        rw [hfull (by omega)] at hlen
        cases hlen
      · intro hle
        exact ⟨_, congrArg Prod.fst (hroom hle)⟩
    · intro buffer len hlen
      obtain ⟨hroom, hfull⟩ := @formatInto_of_emits _ _ buffer hemits
      rcases Nat.lt_or_ge buffer.length (writeFormat dt format).length with hlt | hge
      · rw [hfull hlt] at hlen
        cases hlen
      · rw [hroom hge] at hlen ⊢
        obtain rfl := Option.some.inj hlen
        exact ⟨Buf.length_put (by simpa using hge), hge, Buf.take_put⟩
    · intro buffer e he
      obtain ⟨hroom, hfull⟩ := @formatInto_of_emits _ _ buffer hemits
      rcases Nat.lt_or_ge buffer.length (writeFormat dt format).length with hlt | hge
      · unfold writeTo at he
        split at he
        · cases he
        · obtain rfl := Except.error.inj he
          exact ⟨rfl, hlt⟩
      · rw [writeTo, hroom hge] at he
        cases he

/-- The last supported second, one hour east of Greenwich. -/
def yearTenThousand : DateTime :=
  ⟨MAX_SECS, 0, 3600, .fixedZone ⟨3600, by decide⟩, by decide, rfl⟩

theorem formatters_disagree :
    writeFormat yearTenThousand .rfc3339 = utf8 "+10000-01-01T00:59:59+01:00" ∧
      (formatInto (List.replicate MAX_FORMATTED_LENGTH 0) yearTenThousand .rfc3339).1 = none ∧
      ¬Agrees yearTenThousand .rfc3339 := by
  have htext : writeFormat yearTenThousand .rfc3339 = utf8 "+10000-01-01T00:59:59+01:00" := rfl
  have hnone : (formatInto (List.replicate MAX_FORMATTED_LENGTH 0) yearTenThousand
    .rfc3339).1 = none := rfl
  refine ⟨htext, hnone, fun h => ?_⟩
  obtain ⟨len, hlen⟩ := (h.some_iff (List.replicate MAX_FORMATTED_LENGTH 0)).mpr
    (by rw [htext]; decide)
  rw [hnone] at hlen
  cases hlen

end Stdx.Time
