import Stdx.Time.DateTime

/-!
# Weeks and the machine's calendar

The rest of `time/civil.rs`.  Week `w` of ISO year `y` is the week of the `w`-th Thursday
of the calendar year `y`.
-/

namespace Stdx.Time

/-! ## Machine integers -/

/-- A result of 64-bit arithmetic, where it does not overflow. -/
def i64 (value : Int) : Option Int :=
  if I64_MIN ≤ value ∧ value ≤ I64_MAX then some value else none

def i32 (value : Int) : Option Int :=
  if -2147483648 ≤ value ∧ value ≤ 2147483647 then some value else none

/-- `value as i32`. -/
def asI32 (value : Int) : Int := value.bmod 4294967296

/-- `civil_from_days` with the year of the machine: `none` is an overflow. -/
def civilFromDaysI64 (days : Int) : Option (Int × Nat × Nat) := do
  let days ← i64 (days + EPOCH_DAYS)
  let era := (if days ≥ 0 then days else days - (DAYS_PER_CYCLE - 1)).tdiv DAYS_PER_CYCLE
  let doe := days - era * DAYS_PER_CYCLE
  let yoe := (doe - doe.tdiv 1460 + doe.tdiv 36524 - doe.tdiv 146096).tdiv 365
  let year := asI32 (yoe + era * 400)
  let doy := doe - (365 * yoe + yoe.tdiv 4 - yoe.tdiv 100)
  let mp := (5 * doy + 2).tdiv 153
  let day := (doy - (153 * mp + 2).tdiv 5 + 1).toNat
  let month := (mp + if mp < 10 then 3 else -9).toNat
  let year ← if month ≤ 2 then i32 (year + 1) else some year
  some (year, month, day)

def narrowYear (year : Int) (month : Nat) : Option Int :=
  if month ≤ 2 then i32 (asI32 (year - 1) + 1) else some (asI32 year)

theorem asI32_of_fits {value : Int} (h : -2147483648 ≤ value) (h' : value ≤ 2147483647) :
    asI32 value = value := by
  unfold asI32
  exact Int.bmod_eq_of_le (by omega) (by omega)

theorem narrowYear_of_fits {year : Int} {month : Nat} (h : -2147483647 ≤ year)
    (h' : year ≤ 2147483647) : narrowYear year month = some year := by
  unfold narrowYear
  split
  · rw [asI32_of_fits (by omega) (by omega), Int.sub_add_cancel, i32, if_pos (by omega)]
  · rw [asI32_of_fits (by omega) h']

theorem civilFromDays_parts (days : Int) : ∃ (year : Int) (month day : Nat),
    civilFromDays days = (if month ≤ 2 then year + 1 else year, month, day) ∧
      civilFromDaysI64 days = (i64 (days + EPOCH_DAYS)).bind fun _ =>
        if month ≤ 2 then (i32 (asI32 year + 1)).bind fun year => some (year, month, day)
        else some (asI32 year, month, day) := by
  refine ⟨_, _, _, rfl, ?_⟩
  unfold civilFromDaysI64 i64
  cases hfits : decide (I64_MIN ≤ days + EPOCH_DAYS ∧ days + EPOCH_DAYS ≤ I64_MAX) with
  | true =>
    rw [if_pos (of_decide_eq_true hfits)]
    rfl
  | false =>
    rw [if_neg (of_decide_eq_false hfits)]
    rfl

theorem civilFromDaysI64_eq (days : Int) :
    civilFromDaysI64 days = (i64 (days + EPOCH_DAYS)).bind fun _ =>
      (narrowYear (civilFromDays days).1 (civilFromDays days).2.1).bind fun year =>
        some (year, (civilFromDays days).2.1, (civilFromDays days).2.2) := by
  obtain ⟨year, month, day, hcivil, hmachine⟩ := civilFromDays_parts days
  rw [hmachine, hcivil]
  unfold narrowYear
  split
  · rw [Int.add_sub_cancel]
  · rfl

theorem civilFromDaysI64_supported {days : Int} (hmin : -4371587 ≤ days) (hmax : days ≤ 2932896) :
    civilFromDaysI64 days = some (civilFromDays days) := by
  obtain ⟨hlow, hhigh⟩ := year_of_supported_day hmin hmax
  have hfits : i64 (days + EPOCH_DAYS) = some (days + EPOCH_DAYS) := by
    apply if_pos
    simp only [I64_MIN, I64_MAX, EPOCH_DAYS]
    omega
  rw [civilFromDaysI64_eq, hfits, narrowYear_of_fits (by omega) (by omega)]
  rfl

/-! ## Years -/

def newYear (year : Int) : Int := daysFromCivil year 1 1

theorem newYear_succ (year : Int) :
    newYear (year + 1) = newYear year + 365 + if isLeap year = true then 1 else 0 := by
  have hleap := leapDays_pred year
  simp only [newYear, daysFromCivil_count, marchYear, marchMonth, firstOfMonth]
  norm_num
  omega

def years : Foundation.Timeline where
  start := newYear
  start_lt := by
    intro year
    rw [newYear_succ]
    split <;> omega

theorem isDate_newYear (year : Int) : IsDate year 1 1 :=
  ⟨le_rfl, by decide, le_rfl, by simp [daysInMonth]⟩

theorem years_holds {year : Int} {month day : Nat} (h : IsDate year month day) :
    years.Holds year (daysFromCivil year month day) := by
  have hfirst := daysFromCivil_lt_iff h (isDate_newYear year)
  have hnext := daysFromCivil_lt_iff h (isDate_newYear (year + 1))
  obtain ⟨hlow, -, hday, -⟩ := h
  simp only [DateLt] at hfirst hnext
  constructor
  · apply le_of_not_gt
    intro hlt
    have hbefore := hfirst.mp hlt
    omega
  · exact hnext.mpr (Or.inl (by omega))

theorem year_of_holds {year days : Int} (h : years.Holds year days) :
    (civilFromDays days).1 = year := by
  have hdate := years_holds (isDate_civilFromDays days)
  rw [daysFromCivil_civilFromDays] at hdate
  exact hdate.unique h

/-! ## Weeks -/

def ordinal (year : Int) (month day : Nat) : Nat :=
  ((daysFromCivil year month day - daysFromCivil year 1 1 + 1) % 65536).toNat

def isoWeeksInYear (year : Int) : Nat :=
  let jan1 := weekdayFromDays (daysFromCivil year 1 1)
  if jan1 == 3 || (isLeap year && jan1 == 2) then 53 else 52

def isoWeek (year : Int) (month day : Nat) : Int × Nat :=
  let days := daysFromCivil year month day
  let weekday : Int := weekdayFromDays days + 1
  let week := ((ordinal year month day : Int) - weekday + 10).tdiv 7
  if week < 1 then (year - 1, isoWeeksInYear (year - 1))
  else if week > isoWeeksInYear year then (year + 1, 1)
  else (year, week.toNat)

def IsThursday (days : Int) : Prop := weekdayFromDays days = 3

instance (days : Int) : Decidable (IsThursday days) := inferInstanceAs (Decidable (_ = _))

theorem isThursday_iff (days : Int) : IsThursday days ↔ days % 7 = 0 := by
  unfold IsThursday weekdayFromDays
  omega

noncomputable def thursdays (year days : Int) : Finset Int :=
  (Finset.Icc (newYear year) days).filter fun d => IsThursday d

theorem card_thursdays {year days : Int} (hle : newYear year ≤ days) (h : IsThursday days) :
    ((thursdays year days).card : Int) = (days - newYear year) / 7 + 1 := by
  rw [isThursday_iff] at h
  have himage : thursdays year days = (Finset.range ((days - newYear year) / 7 + 1).toNat).image
      fun i : Nat => days - 7 * (i : Int) := by
    ext d
    simp only [thursdays, Finset.mem_filter, Finset.mem_Icc, isThursday_iff, Finset.mem_image,
      Finset.mem_range]
    constructor
    · rintro ⟨⟨hfirst, hlast⟩, hd⟩
      exact ⟨((days - d) / 7).toNat, by omega, by omega⟩
    · rintro ⟨i, hi, rfl⟩
      omega
  have hinjective : Function.Injective fun i : Nat => days - 7 * (i : Int) := by
    intro i j hij
    dsimp only at hij
    omega
  rw [himage, Finset.card_image_of_injective _ hinjective, Finset.card_range]
  omega

theorem ordinal_eq {year : Int} {month day : Nat} (h : IsDate year month day) :
    (ordinal year month day : Int) = daysFromCivil year month day - newYear year + 1 := by
  obtain ⟨hfirst, hlast⟩ := years_holds h
  change newYear year ≤ _ at hfirst
  change _ < newYear (year + 1) at hlast
  rw [newYear_succ] at hlast
  have hlength : daysFromCivil year month day < newYear year + 366 := by
    split at hlast <;> omega
  unfold ordinal
  change (((daysFromCivil year month day - newYear year + 1) % 65536).toNat : Int) = _
  omega

theorem isoWeeksInYear_eq {year thursday : Int} (h : thursday % 7 = 0)
    (hlast : newYear (year + 1) - 7 ≤ thursday) (hend : thursday < newYear (year + 1)) :
    (isoWeeksInYear year : Int) = (thursday - newYear year) / 7 + 1 := by
  have hlength := newYear_succ year
  have hjan (k : Nat) : weekdayFromDays (daysFromCivil year 1 1) = k ↔
      (newYear year + 3) % 7 = k := by
    unfold weekdayFromDays newYear
    omega
  simp only [isoWeeksInYear, Bool.or_eq_true, Bool.and_eq_true, beq_iff_eq, hjan]
  split at hlength <;> split <;> simp_all <;> omega

def thursdayOf (days : Int) : Int := days - weekdayFromDays days + 3

theorem thursdayOf_spec (days : Int) :
    thursdayOf days % 7 = 0 ∧ days - 3 ≤ thursdayOf days ∧ thursdayOf days ≤ days + 3 := by
  unfold thursdayOf weekdayFromDays
  omega

theorem isoWeek_eq {year : Int} {month day : Nat} (h : IsDate year month day) :
    isoWeek year month day =
      let thursday := thursdayOf (daysFromCivil year month day)
      ((civilFromDays thursday).1,
        ((thursday - newYear (civilFromDays thursday).1) / 7 + 1).toNat) := by
  have hordinal := ordinal_eq h
  obtain ⟨hfirst, hnext⟩ := years_holds h
  change newYear year ≤ _ at hfirst
  change _ < newYear (year + 1) at hnext
  have hweekday : ((weekdayFromDays (daysFromCivil year month day) : Int)) =
      daysFromCivil year month day - thursdayOf (daysFromCivil year month day) + 3 := by
    unfold thursdayOf
    omega
  obtain ⟨hmod, hlow, hhigh⟩ := thursdayOf_spec (daysFromCivil year month day)
  have hcount : (ordinal year month day : Int) -
      (weekdayFromDays (daysFromCivil year month day) + 1) + 10 =
      thursdayOf (daysFromCivil year month day) - newYear year + 7 := by omega
  simp only [isoWeek, hcount]
  generalize daysFromCivil year month day = days at *
  generalize thursdayOf days = thursday at *
  have hyear := newYear_succ year
  have hbefore := newYear_succ (year - 1)
  rw [Int.sub_add_cancel] at hbefore
  have hafter := newYear_succ (year + 1)
  rw [Int.tdiv_eq_ediv_of_nonneg (by omega)]
  by_cases hprevious : thursday < newYear year
  · -- the Thursday lies in the last days of the year before
    have hholds : years.Holds (year - 1) thursday := by
      change newYear (year - 1) ≤ _ ∧ _ < newYear (year - 1 + 1)
      rw [Int.sub_add_cancel]
      split at hbefore <;> omega
    have hweeks := @isoWeeksInYear_eq (year - 1) _ hmod (by rw [Int.sub_add_cancel]; omega)
      (by rw [Int.sub_add_cancel]; omega)
    rw [if_pos (by omega), year_of_holds hholds]
    simp only [Prod.mk.injEq, true_and]
    omega
  rw [if_neg (by omega)]
  by_cases hfollowing : newYear (year + 1) ≤ thursday
  · have hholds : years.Holds (year + 1) thursday := by
      change newYear (year + 1) ≤ _ ∧ _ < newYear (year + 1 + 1)
      split at hafter <;> omega
    have hweeks := @isoWeeksInYear_eq year (thursday - 7) (by omega) (by omega) (by omega)
    rw [if_pos (by omega), year_of_holds hholds]
    simp only [Prod.mk.injEq, true_and]
    omega
  · have hholds : years.Holds year thursday := by
      change newYear year ≤ _ ∧ _ < newYear (year + 1)
      omega
    obtain ⟨last, hlast, hfrom, hto⟩ : ∃ last, last % 7 = 0 ∧ newYear (year + 1) - 7 ≤ last ∧
        last < newYear (year + 1) :=
      ⟨(newYear (year + 1) - 1) / 7 * 7, by omega, by omega, by omega⟩
    have hweeks := @isoWeeksInYear_eq year _ hlast hfrom hto
    rw [if_neg (by omega), year_of_holds hholds]
    simp only [Prod.mk.injEq, true_and]
    omega

/-! ## The calendar as a whole -/

/-- The date that the machine gives for a day is the only date of that day. -/
def ConvertsUniquely (days : Int) : Prop :=
  ∃ date : Int × Nat × Nat, civilFromDaysI64 days = some date ∧
    ∀ other : Int × Nat × Nat, IsDate other.1 other.2.1 other.2.2 ∧
      daysFromCivil other.1 other.2.1 other.2.2 = days ↔ other = date

def Consecutive (a b : Int × Nat × Nat) : Prop :=
  DateLt a b ∧ ∀ c : Int × Nat × Nat, IsDate c.1 c.2.1 c.2.2 → ¬(DateLt a c ∧ DateLt c b)

theorem convertsUniquely {days : Int} (hmin : -4371587 ≤ days) (hmax : days ≤ 2932896) :
    ConvertsUniquely days := by
  refine ⟨civilFromDays days, civilFromDaysI64_supported hmin hmax, ?_⟩
  intro other
  constructor
  · rintro ⟨hdate, rfl⟩
    exact (civilFromDays_daysFromCivil hdate).symm
  · rintro rfl
    exact ⟨isDate_civilFromDays days, daysFromCivil_civilFromDays days⟩

theorem days_of_consecutive {a b : Int × Nat × Nat} (ha : IsDate a.1 a.2.1 a.2.2)
    (hb : IsDate b.1 b.2.1 b.2.2) (h : Consecutive a b) :
    daysFromCivil b.1 b.2.1 b.2.2 = daysFromCivil a.1 a.2.1 a.2.2 + 1 := by
  have hlt := (daysFromCivil_lt_iff ha hb).mpr h.1
  by_contra hgap
  -- the date of the day after `a` would lie between the two
  have hnext := isDate_civilFromDays (daysFromCivil a.1 a.2.1 a.2.2 + 1)
  have hdays := daysFromCivil_civilFromDays (daysFromCivil a.1 a.2.1 a.2.2 + 1)
  apply h.2 _ hnext
  constructor
  · apply (daysFromCivil_lt_iff ha hnext).mp
    omega
  · apply (daysFromCivil_lt_iff hnext hb).mp
    omega

theorem isoWeek_counts_thursdays {year : Int} {month day : Nat} (h : IsDate year month day) :
    ∃ thursday, IsThursday thursday ∧
      (∃ monday, weekdayFromDays monday = 0 ∧
        daysFromCivil year month day ∈ Finset.Icc monday (monday + 6) ∧
        thursday ∈ Finset.Icc monday (monday + 6)) ∧
      isoWeek year month day = ((civilFromDays thursday).1,
        (thursdays (civilFromDays thursday).1 thursday).card) := by
  obtain ⟨hmod, hlow, hhigh⟩ := thursdayOf_spec (daysFromCivil year month day)
  have hthursday := (isThursday_iff _).mpr hmod
  have hstart := (years_holds (isDate_civilFromDays
    (thursdayOf (daysFromCivil year month day)))).1
  rw [daysFromCivil_civilFromDays] at hstart
  have hcard := card_thursdays hstart hthursday
  refine ⟨_, hthursday, ⟨thursdayOf (daysFromCivil year month day) - 3, ?_, ?_, ?_⟩, ?_⟩
  · unfold weekdayFromDays
    omega
  · rw [Finset.mem_Icc]
    omega
  · rw [Finset.mem_Icc]
    omega
  · rw [isoWeek_eq h]
    simp only [Prod.mk.injEq, true_and]
    omega

/-- The conversions are inverse to each other and follow the order of the dates, and the
weeks are those of ISO 8601. -/
theorem calendar_conversions :
    (∀ days ∈ Finset.Icc (daysFromCivil MIN_YEAR 1 1) (daysFromCivil MAX_YEAR 12 31),
      ConvertsUniquely days) ∧
    (∀ a b : Int × Nat × Nat, IsDate a.1 a.2.1 a.2.2 → IsDate b.1 b.2.1 b.2.2 →
      (DateLt a b ↔ daysFromCivil a.1 a.2.1 a.2.2 < daysFromCivil b.1 b.2.1 b.2.2) ∧
      (Consecutive a b → daysFromCivil b.1 b.2.1 b.2.2 = daysFromCivil a.1 a.2.1 a.2.2 + 1)) ∧
    (∀ year month day, IsDate year month day → ∃ thursday, IsThursday thursday ∧
      (∃ monday, weekdayFromDays monday = 0 ∧
        daysFromCivil year month day ∈ Finset.Icc monday (monday + 6) ∧
        thursday ∈ Finset.Icc monday (monday + 6)) ∧
      isoWeek year month day = ((civilFromDays thursday).1,
        (thursdays (civilFromDays thursday).1 thursday).card)) := by
  refine ⟨?_, ?_, ?_⟩
  · intro days hdays
    rw [Finset.mem_Icc] at hdays
    exact convertsUniquely hdays.1 hdays.2
  · intro a b ha hb
    exact ⟨(daysFromCivil_lt_iff ha hb).symm, days_of_consecutive ha hb⟩
  · intro year month day h
    exact isoWeek_counts_thursdays h

end Stdx.Time
