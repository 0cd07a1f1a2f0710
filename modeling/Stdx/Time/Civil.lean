import Mathlib.Tactic
import Stdx.Foundation.Timeline

/-!
# Proleptic Gregorian calendar

`time/civil.rs`.  Years are astronomical, and day 0 is 1970-01-01.  The division and the
remainder of the source truncate; the two conversions are inverse to each other on the
dates of the calendar.
-/

namespace Stdx.Time

abbrev SECS_PER_DAY : Int := 86400
abbrev NANOS_PER_SEC : Nat := 1000000000
abbrev DAYS_PER_CYCLE : Int := 146097
abbrev EPOCH_DAYS : Int := 719468

def isLeap (year : Int) : Bool :=
  (year.tmod 4 == 0 && year.tmod 100 != 0) || year.tmod 400 == 0

def daysInMonth (year : Int) (month : Nat) : Nat :=
  match month with
  | 1 | 3 | 5 | 7 | 8 | 10 | 12 => 31
  | 4 | 6 | 9 | 11 => 30
  | 2 => if isLeap year then 29 else 28
  | _ => 0

def daysFromCivil (year : Int) (month day : Nat) : Int :=
  let year := year - if month ≤ 2 then 1 else 0
  let era := (if year ≥ 0 then year else year - 399).tdiv 400
  let yoe := year - era * 400
  let month : Int := month
  let doy := (153 * (month + if month > 2 then -3 else 9) + 2).tdiv 5 + day - 1
  let doe := yoe * 365 + yoe.tdiv 4 - yoe.tdiv 100 + doy
  era * DAYS_PER_CYCLE + doe - EPOCH_DAYS

def civilFromDays (days : Int) : Int × Nat × Nat :=
  let days := days + EPOCH_DAYS
  let era := (if days ≥ 0 then days else days - (DAYS_PER_CYCLE - 1)).tdiv DAYS_PER_CYCLE
  let doe := days - era * DAYS_PER_CYCLE
  let yoe := (doe - doe.tdiv 1460 + doe.tdiv 36524 - doe.tdiv 146096).tdiv 365
  let year := yoe + era * 400
  let doy := doe - (365 * yoe + yoe.tdiv 4 - yoe.tdiv 100)
  let mp := (5 * doy + 2).tdiv 153
  let day := (doy - (153 * mp + 2).tdiv 5 + 1).toNat
  let month := (mp + if mp < 10 then 3 else -9).toNat
  (if month ≤ 2 then year + 1 else year, month, day)

def weekdayFromDays (days : Int) : Nat := ((days + 3) % 7).toNat

def IsDate (year : Int) (month day : Nat) : Prop :=
  1 ≤ month ∧ month ≤ 12 ∧ 1 ≤ day ∧ day ≤ daysInMonth year month

instance (year : Int) (month day : Nat) : Decidable (IsDate year month day) :=
  inferInstanceAs (Decidable (_ ∧ _ ∧ _ ∧ _))

/-! ## The division of an era into years -/

theorem tdiv_era {x d k : Int} (hd : 0 < d) (hk : k = d - 1) :
    (if x ≥ 0 then x else x - k).tdiv d = x / d := by
  subst hk
  split
  · exact Int.tdiv_eq_ediv_of_nonneg (by assumption)
  · have hneg : x - (d - 1) = -(d - 1 - x) := by ring
    have hrest : d - 1 - x = (d - 1 - x % d) + d * (-(x / d)) := by
      linear_combination (Int.mul_ediv_add_emod x d)
    have hsmall : (d - 1 - x % d) / d = 0 := by
      have hnonneg := Int.emod_nonneg x (by omega : d ≠ 0)
      have hlt := Int.emod_lt_of_pos x hd
      exact Int.ediv_eq_zero_of_lt (by omega) (by omega)
    rw [hneg, Int.neg_tdiv, Int.tdiv_eq_ediv_of_nonneg (by omega), hrest,
      Int.add_mul_ediv_left _ _ (by omega : d ≠ 0), hsmall]
    omega

/-- Day `doe` of an era, as centuries, cycles of four years, years and days.  The 366th
day of a year occurs in the last year of a cycle, and of a century only in the fourth. -/
structure EraDay (doe c q t u : Int) : Prop where
  doe_eq : doe = 36524 * c + 1461 * q + 365 * t + u
  century : 0 ≤ c ∧ c ≤ 3
  cycle : 0 ≤ q ∧ q ≤ 24
  year : 0 ≤ t ∧ t ≤ 3
  day : 0 ≤ u ∧ u ≤ 365
  leap : u = 365 → t = 3 ∧ (q = 24 → c = 3)

theorem exists_eraDay {doe : Int} (h0 : 0 ≤ doe) (h1 : doe ≤ 146096) :
    ∃ c q t u : Int, EraDay doe c q t u := by
  have hc : ∃ c, c = min (doe / 36524) 3 := ⟨_, rfl⟩
  obtain ⟨c, hc⟩ := hc
  have hq : ∃ q, q = (doe - 36524 * c) / 1461 := ⟨_, rfl⟩
  obtain ⟨q, hq⟩ := hq
  have ht : ∃ t, t = min ((doe - 36524 * c - 1461 * q) / 365) 3 := ⟨_, rfl⟩
  obtain ⟨t, ht⟩ := ht
  exact ⟨c, q, t, doe - 36524 * c - 1461 * q - 365 * t, by omega, by omega, by omega, by omega,
    by omega, by omega⟩

theorem EraDay.yoe {doe c q t u : Int} (h : EraDay doe c q t u) :
    (doe - doe / 1460 + doe / 36524 - doe / 146096) / 365 = 100 * c + 4 * q + t := by
  obtain ⟨hdoe, hc, hq, ht, hu, hleap⟩ := h
  have h1 : doe / 36524 = c + if c = 3 ∧ q = 24 ∧ t = 3 ∧ u = 365 then 1 else 0 := by
    rw [Int.ediv_eq_iff_of_pos (by decide)]
    split <;> omega
  have h2 : doe / 146096 = if c = 3 ∧ q = 24 ∧ t = 3 ∧ u = 365 then 1 else 0 := by
    rw [Int.ediv_eq_iff_of_pos (by decide)]
    split <;> omega
  have h3 : doe / 1460 = 25 * c + q + if 1460 ≤ 24 * c + q + 365 * t + u then 1 else 0 := by
    rw [Int.ediv_eq_iff_of_pos (by decide)]
    split <;> omega
  rw [h1, h2, h3, Int.ediv_eq_iff_of_pos (by decide)]
  -- the last day of the era is the only one that both corrections of a year reach
  split <;> split <;> omega

theorem EraDay.doy {doe c q t u yoe : Int} (h : EraDay doe c q t u)
    (hyoe : yoe = 100 * c + 4 * q + t) : 365 * yoe + yoe / 4 - yoe / 100 = doe - u := by
  obtain ⟨hdoe, hc, hq, ht, hu, hleap⟩ := h
  have h4 : yoe / 4 = 25 * c + q := by
    rw [Int.ediv_eq_iff_of_pos (by decide)]
    omega
  have h100 : yoe / 100 = c := by
    rw [Int.ediv_eq_iff_of_pos (by decide)]
    omega
  rw [h4, h100]
  omega

theorem isLeap_iff (year : Int) :
    isLeap year = true ↔ (year % 4 = 0 ∧ year % 100 ≠ 0) ∨ year % 400 = 0 := by
  have htmod (d : Int) : year.tmod d = 0 ↔ year % d = 0 := by
    rw [← Int.dvd_iff_tmod_eq_zero, Int.dvd_iff_emod_eq_zero]
  simp only [isLeap, Bool.or_eq_true, Bool.and_eq_true, beq_iff_eq, bne_iff_ne, ne_eq, htmod]

/-! ## The two conversions -/

def marchYear (year : Int) (month : Nat) : Int := if month ≤ 2 then year - 1 else year

def marchMonth (month : Nat) : Int := if month > 2 then month - 3 else month + 9

def monthOfDay (doy : Int) : Int := (5 * doy + 2) / 153

def firstOfMonth (mp : Int) : Int := (153 * mp + 2) / 5

theorem daysFromCivil_eq (year : Int) (month day : Nat) :
    daysFromCivil year month day = marchYear year month / 400 * 146097 +
      (365 * (marchYear year month % 400) + marchYear year month % 400 / 4 -
        marchYear year month % 400 / 100 + (firstOfMonth (marchMonth month) + day - 1)) -
      719468 := by
  have hera := tdiv_era (x := marchYear year month) (d := 400) (k := 399) (by omega) (by omega)
  have hmod : marchYear year month - marchYear year month / 400 * 400 =
      marchYear year month % 400 := by omega
  have hy : (year - if month ≤ 2 then 1 else 0) = marchYear year month := by
    unfold marchYear
    split <;> omega
  have hm : ((month : Int) + if (month : Int) > 2 then -3 else 9) = marchMonth month := by
    unfold marchMonth
    split <;> omega
  have hm0 : 0 ≤ marchMonth month := by
    unfold marchMonth
    split <;> omega
  simp only [daysFromCivil, hy, hera, hmod, hm, firstOfMonth]
  rw [Int.tdiv_eq_ediv_of_nonneg (by omega), Int.tdiv_eq_ediv_of_nonneg (by omega),
    Int.tdiv_eq_ediv_of_nonneg (by omega)]
  ring

theorem era_years (y : Int) :
    y / 400 * 146097 + (365 * (y % 400) + y % 400 / 4 - y % 400 / 100) =
      365 * y + y / 4 - y / 100 + y / 400 := by
  have h4 : y / 4 = 100 * (y / 400) + y % 400 / 4 := by omega
  have h100 : y / 100 = 4 * (y / 400) + y % 400 / 100 := by omega
  rw [h4, h100]
  omega

theorem daysFromCivil_count (year : Int) (month day : Nat) :
    daysFromCivil year month day = 365 * marchYear year month + marchYear year month / 4 -
      marchYear year month / 100 + marchYear year month / 400 +
        (firstOfMonth (marchMonth month) + day - 1) - 719468 := by
  rw [daysFromCivil_eq, ← era_years]
  ring

theorem civilFromDays_eq {days c q t u : Int} (h : EraDay ((days + 719468) % 146097) c q t u) :
    civilFromDays days =
      (100 * c + 4 * q + t + (days + 719468) / 146097 * 400 + (if monthOfDay u < 10 then 0 else 1),
        (monthOfDay u + if monthOfDay u < 10 then 3 else -9).toNat,
        (u - firstOfMonth (monthOfDay u) + 1).toNat) := by
  have hera := tdiv_era (x := days + 719468) (d := 146097) (k := 146097 - 1) (by omega) (by omega)
  have hmod : days + 719468 - (days + 719468) / 146097 * 146097 = (days + 719468) % 146097 := by
    omega
  generalize hdoe : (days + 719468) % 146097 = doe at h hmod
  have hnonneg : 0 ≤ doe := by omega
  have hyoe := h.yoe
  have hdoy := h.doy rfl
  have hu := h.day
  have hyear : 0 ≤ 100 * c + 4 * q + t := by
    have := h.century
    have := h.cycle
    have := h.year
    omega
  have hmp : 0 ≤ monthOfDay u := by
    unfold monthOfDay
    omega
  have hnum : 0 ≤ doe - doe / 1460 + doe / 36524 - doe / 146096 := by omega
  have hdoy' : doe - (doe - u) = u := by omega
  simp only [civilFromDays, hera, hmod,
    Int.tdiv_eq_ediv_of_nonneg hnonneg, Int.tdiv_eq_ediv_of_nonneg hnum, hyoe,
    Int.tdiv_eq_ediv_of_nonneg hyear, hdoy, hdoy',
    Int.tdiv_eq_ediv_of_nonneg (show 0 ≤ 5 * u + 2 by omega)]
  have hfirst : 0 ≤ 153 * monthOfDay u + 2 := by omega
  simp only [← monthOfDay.eq_1 u, Int.tdiv_eq_ediv_of_nonneg hfirst, ← firstOfMonth.eq_1]
  have hmp' : monthOfDay u ≤ 11 := by
    unfold monthOfDay
    omega
  refine Prod.ext ?_ rfl
  dsimp only
  split <;> split <;> omega

theorem monthOfDay_lt {u : Int} (h0 : 0 ≤ u) (h1 : u ≤ 365) :
    0 ≤ monthOfDay u ∧ monthOfDay u ≤ 11 := by
  unfold monthOfDay
  omega

theorem daysFromCivil_civilFromDays (days : Int) :
    daysFromCivil (civilFromDays days).1 (civilFromDays days).2.1 (civilFromDays days).2.2 =
      days := by
  obtain ⟨c, q, t, u, h⟩ := @exists_eraDay ((days + 719468) % 146097) (by omega) (by omega)
  have hmp := monthOfDay_lt h.day.1 h.day.2
  have hfirst : firstOfMonth (monthOfDay u) ≤ u := by
    unfold firstOfMonth monthOfDay
    omega
  have hera := Int.mul_ediv_add_emod (days + 719468) 146097
  rw [civilFromDays_eq h, daysFromCivil_count]
  dsimp only
  have hyear : marchYear (100 * c + 4 * q + t + (days + 719468) / 146097 * 400 +
      (if monthOfDay u < 10 then 0 else 1))
      (monthOfDay u + if monthOfDay u < 10 then 3 else -9).toNat
      = 100 * c + 4 * q + t + (days + 719468) / 146097 * 400 := by
    unfold marchYear
    split <;> split at * <;> omega
  have hmonth : marchMonth (monthOfDay u + if monthOfDay u < 10 then 3 else -9).toNat =
      monthOfDay u := by
    unfold marchMonth
    split <;> split at * <;> omega
  obtain ⟨hdoe, hc, hq, ht, hu, -⟩ := h
  rw [hyear, hmonth]
  generalize (days + 719468) / 146097 = e at hera ⊢
  have h4 : (100 * c + 4 * q + t + e * 400) / 4 = 100 * e + 25 * c + q := by
    rw [Int.ediv_eq_iff_of_pos (by decide)]
    omega
  have h100 : (100 * c + 4 * q + t + e * 400) / 100 = 4 * e + c := by
    rw [Int.ediv_eq_iff_of_pos (by decide)]
    omega
  have h400 : (100 * c + 4 * q + t + e * 400) / 400 = e := by
    rw [Int.ediv_eq_iff_of_pos (by decide)]
    omega
  rw [h4, h100, h400]
  omega

theorem year_of_supported_day {days : Int} (hmin : -4371587 ≤ days) (hmax : days ≤ 2932896) :
    -9999 ≤ (civilFromDays days).1 ∧ (civilFromDays days).1 ≤ 9999 := by
  obtain ⟨c, q, t, u, h⟩ := @exists_eraDay ((days + 719468) % 146097) (by omega) (by omega)
  rw [civilFromDays_eq h]
  obtain ⟨hdoe, hc, hq, ht, hu, hleap⟩ := h
  have hmp : monthOfDay u < 10 ↔ u < 306 := by
    unfold monthOfDay
    omega
  simp only [hmp]
  split <;> omega

theorem daysInMonth_february (year : Int) :
    28 ≤ daysInMonth year 2 ∧ (isLeap year = true → daysInMonth year 2 = 29) := by
  cases hleap : isLeap year <;> simp [daysInMonth, hleap]

theorem isDate_civilFromDays (days : Int) :
    IsDate (civilFromDays days).1 (civilFromDays days).2.1 (civilFromDays days).2.2 := by
  obtain ⟨c, q, t, u, h⟩ := @exists_eraDay ((days + 719468) % 146097) (by omega) (by omega)
  obtain ⟨hlow, hhigh⟩ := monthOfDay_lt h.day.1 h.day.2
  rw [civilFromDays_eq h]
  have hday := h.day
  have hleap : u = 365 →
      isLeap (100 * c + 4 * q + t + (days + 719468) / 146097 * 400 + 1) = true := by
    intro hu
    obtain ⟨ht, hq⟩ := h.leap hu
    obtain ⟨hc, hq'⟩ := And.intro h.century h.cycle
    rw [isLeap_iff]
    omega
  have hdef : monthOfDay u = (5 * u + 2) / 153 := rfl
  generalize monthOfDay u = mp at hlow hhigh hdef ⊢
  unfold IsDate firstOfMonth
  interval_cases mp
  case «11» =>
    obtain ⟨hfeb, hlong⟩ := daysInMonth_february
      (100 * c + 4 * q + t + (days + 719468) / 146097 * 400 + 1)
    simp
    by_cases hu : u = 365
    · have := hlong (hleap hu)
      omega
    · omega
  all_goals
    simp [daysInMonth]
    omega

/-! ## The order of the dates -/

theorem ediv_pred {d : Int} (hd : 1 < d) (y : Int) :
    y / d = (y - 1) / d + if y % d = 0 then 1 else 0 := by
  have hrest := Int.mul_ediv_add_emod y d
  have hnonneg := Int.emod_nonneg y (by omega : d ≠ 0)
  have hlt := Int.emod_lt_of_pos y (by omega : 0 < d)
  rw [eq_comm, ← eq_sub_iff_add_eq, Int.ediv_eq_iff_of_pos (by omega)]
  split
  · constructor <;> linarith
  · have hpos : 0 < y % d := by omega
    constructor <;> linarith

theorem leapDays_pred (y : Int) :
    y / 4 - y / 100 + y / 400 = (y - 1) / 4 - (y - 1) / 100 + (y - 1) / 400 +
      if isLeap y = true then 1 else 0 := by
  rw [ediv_pred (d := 4) (by decide) y, ediv_pred (d := 100) (by decide) y,
    ediv_pred (d := 400) (by decide) y]
  simp only [isLeap_iff]
  split <;> split <;> split <;> split <;> omega

theorem daysFromCivil_next_month {year : Int} {month : Nat} (h : 1 ≤ month) (h' : month ≤ 11) :
    daysFromCivil year (month + 1) 1 = daysFromCivil year month 1 + daysInMonth year month := by
  rw [daysFromCivil_count, daysFromCivil_count]
  interval_cases month
  case «2» =>
    have hleap := leapDays_pred year
    simp only [marchYear, marchMonth, firstOfMonth, daysInMonth]
    split at hleap <;> simp_all <;> omega
  all_goals
    simp [marchYear, marchMonth, firstOfMonth, daysInMonth]
    omega

theorem daysFromCivil_next_year (year : Int) :
    daysFromCivil (year + 1) 1 1 = daysFromCivil year 12 1 + daysInMonth year 12 := by
  rw [daysFromCivil_count, daysFromCivil_count]
  simp [marchYear, marchMonth, firstOfMonth, daysInMonth]
  omega

def monthStart (k : Int) : Int := daysFromCivil (k / 12) (k % 12 + 1).toNat 1

def monthNumber (year : Int) (month : Nat) : Int := 12 * year + (month - 1)

theorem monthStart_monthNumber {year : Int} {month : Nat} (h : 1 ≤ month) (h' : month ≤ 12) :
    monthStart (monthNumber year month) = daysFromCivil year month 1 := by
  have hyear : (12 * year + ((month : Int) - 1)) / 12 = year := by omega
  have hmonth : ((12 * year + ((month : Int) - 1)) % 12 + 1).toNat = month := by omega
  simp only [monthStart, monthNumber, hyear, hmonth]

theorem monthStart_succ {year : Int} {month : Nat} (h : 1 ≤ month) (h' : month ≤ 12) :
    monthStart (monthNumber year month + 1) =
      daysFromCivil year month 1 + daysInMonth year month := by
  by_cases hlast : month = 12
  · subst hlast
    have hnext : monthNumber year 12 + 1 = monthNumber (year + 1) 1 := by
      simp only [monthNumber]
      push_cast
      ring
    rw [hnext, monthStart_monthNumber le_rfl (by decide), daysFromCivil_next_year]
  · have hnext : monthNumber year month + 1 = monthNumber year (month + 1) := by
      simp only [monthNumber]
      push_cast
      ring
    rw [hnext, monthStart_monthNumber (by omega) (by omega), daysFromCivil_next_month h (by omega)]

theorem daysInMonth_pos {year : Int} {month : Nat} (h : 1 ≤ month) (h' : month ≤ 12) :
    28 ≤ daysInMonth year month := by
  interval_cases month
  case «2» => exact (daysInMonth_february year).1
  all_goals simp [daysInMonth]

theorem exists_monthNumber (k : Int) :
    ∃ year month, 1 ≤ month ∧ month ≤ 12 ∧ k = monthNumber year month := by
  refine ⟨k / 12, (k % 12 + 1).toNat, by omega, by omega, ?_⟩
  simp only [monthNumber]
  omega

def months : Foundation.Timeline where
  start := monthStart
  start_lt := by
    intro k
    obtain ⟨year, month, hlow, hhigh, rfl⟩ := exists_monthNumber k
    have hlength := @daysInMonth_pos year _ hlow hhigh
    rw [monthStart_succ hlow hhigh, monthStart_monthNumber hlow hhigh]
    omega

theorem daysFromCivil_day (year : Int) (month day : Nat) :
    daysFromCivil year month day = daysFromCivil year month 1 + (day - 1) := by
  rw [daysFromCivil_count, daysFromCivil_count]
  push_cast
  ring

theorem months_holds {year : Int} {month day : Nat} (h : IsDate year month day) :
    months.Holds (monthNumber year month) (daysFromCivil year month day) := by
  obtain ⟨hlow, hhigh, hday, hlast⟩ := h
  have hstart := @monthStart_monthNumber year _ hlow hhigh
  have hend := @monthStart_succ year _ hlow hhigh
  rw [Foundation.Timeline.Holds, daysFromCivil_day]
  change monthStart _ ≤ _ ∧ _ < monthStart _
  omega

/-- The dates in the order of their years, months and days. -/
def DateLt (a b : Int × Nat × Nat) : Prop :=
  a.1 < b.1 ∨ a.1 = b.1 ∧ (a.2.1 < b.2.1 ∨ a.2.1 = b.2.1 ∧ a.2.2 < b.2.2)

theorem daysFromCivil_lt_iff {year year' : Int} {month month' day day' : Nat}
    (h : IsDate year month day) (h' : IsDate year' month' day') :
    daysFromCivil year month day < daysFromCivil year' month' day' ↔
      DateLt (year, month, day) (year', month', day') := by
  have hstart := @monthStart_monthNumber year _ h.1 h.2.1
  have hstart' := @monthStart_monthNumber year' _ h'.1 h'.2.1
  have hday := daysFromCivil_day year month day
  have hday' := daysFromCivil_day year' month' day'
  have hmonths : monthNumber year month < monthNumber year' month' ↔
      year < year' ∨ year = year' ∧ month < month' := by
    obtain ⟨hlow, hhigh, -, -⟩ := h
    obtain ⟨hlow', hhigh', -, -⟩ := h'
    simp only [monthNumber]
    omega
  have hmonth : monthNumber year month = monthNumber year' month' ↔
      year = year' ∧ month = month' := by
    obtain ⟨hlow, hhigh, -, -⟩ := h
    obtain ⟨hlow', hhigh', -, -⟩ := h'
    simp only [monthNumber]
    omega
  rw [(months_holds h).lt_iff (months_holds h'), hmonths, hmonth]
  change _ ∨ _ ∧ _ - monthStart _ < _ - monthStart _ ↔ _
  rw [hstart, hstart', hday, hday', DateLt]
  dsimp only
  omega

theorem daysFromCivil_injective {year year' : Int} {month month' day day' : Nat}
    (h : IsDate year month day) (h' : IsDate year' month' day')
    (heq : daysFromCivil year month day = daysFromCivil year' month' day') :
    (year, month, day) = (year', month', day') := by
  have hlt := daysFromCivil_lt_iff h h'
  have hgt := daysFromCivil_lt_iff h' h
  simp only [heq, lt_irrefl, false_iff, DateLt] at hlt hgt
  simp only [Prod.mk.injEq]
  omega

theorem civilFromDays_daysFromCivil {year : Int} {month day : Nat} (h : IsDate year month day) :
    civilFromDays (daysFromCivil year month day) = (year, month, day) :=
  daysFromCivil_injective (isDate_civilFromDays _) h (daysFromCivil_civilFromDays _)

end Stdx.Time
