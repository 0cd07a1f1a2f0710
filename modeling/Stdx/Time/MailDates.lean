import Stdx.Time.RoundTrip

/-!
# Mail and HTTP dates

What the strict formatter writes in the formats of RFC 2822 and of RFC 9110, and what the
parser makes of it.  Both formats print whole seconds, the first in the zone of the value
and the second in UTC.
-/

namespace Stdx.Time

open Stdx.Foundation

/-! ## Fields -/

theorem tokensOf_cons {token : Bytes} (hne : token ≠ [])
    (h : ∀ octet ∈ token, isAsciiWhitespace octet = false) (rest : Bytes) :
    tokensOf (token ++ 32 :: rest) = token :: tokensOf rest := by
  rw [tokensOf, List.splitOnP_append_cons_of_forall_mem h 32 rfl,
    List.filter_cons_of_pos (by simpa)]
  rfl

theorem tokensOf_singleton {token : Bytes} (hne : token ≠ [])
    (h : ∀ octet ∈ token, isAsciiWhitespace octet = false) : tokensOf token = [token] := by
  rw [tokensOf, List.splitOnP_eq_singleton h, List.filter_cons_of_pos (by simpa)]
  rfl

theorem not_whitespace_of_digit {octet : UInt8} (h : isAsciiDigit octet = true) :
    isAsciiWhitespace octet = false ∧ octet ≠ 58 ∧ octet.toNat < 128 := by
  have hrange : 48 ≤ octet.toNat ∧ octet.toNat ≤ 57 := by
    simpa [isAsciiDigit, UInt8.le_iff_toNat_le] using h
  have hne (n : Nat) (hn : n < 48 ∨ 57 < n) (hlt : n < 256) : octet ≠ UInt8.ofNat n := by
    rintro rfl
    rw [UInt8.toNat_ofNat', Nat.mod_eq_of_lt hlt] at hrange
    omega
  refine ⟨?_, hne 58 (by omega) (by omega), by omega⟩
  have h32 := hne 32 (by omega) (by omega)
  have h9 := hne 9 (by omega) (by omega)
  have h10 := hne 10 (by omega) (by omega)
  have h12 := hne 12 (by omega) (by omega)
  have h13 := hne 13 (by omega) (by omega)
  simp only [isAsciiWhitespace, Bool.or_eq_false_iff, beq_eq_false_iff_ne]
  exact ⟨⟨⟨⟨h32, h9⟩, h10⟩, h12⟩, h13⟩

theorem parseDecimal_fixedDigits {width n min max : Nat} (h : n < 10 ^ width) (hmin : min ≤ width)
    (hmax : width ≤ max) : parseDecimal (fixedDigits width n) min max = .ok n := by
  have hdigits : (fixedDigits width n).all isAsciiDigit = true :=
    List.all_eq_true.mpr fun octet hmem => isAsciiDigit_of_mem hmem
  rw [parseDecimal, if_neg, digitsValue_fixedDigits, Nat.mod_eq_of_lt h]
  simp [hdigits]
  omega

theorem fixedDigits_two (n : Nat) : fixedDigits 2 n = [digit (n / 10), digit n] := rfl

theorem fixedDigits_four (n : Nat) :
    fixedDigits 4 n = [digit (n / 1000), digit (n / 100), digit (n / 10), digit n] := by
  simp [fixedDigits, Nat.div_div_eq_div_mul]

theorem oneDigit_digit (n : Nat) : oneDigit (digit n) = .ok (n % 10) := by
  rw [oneDigit, if_pos (isAsciiDigit_digit n), toNat_digit]
  simp

theorem twoDigits_fixedDigits {n : Nat} (h : n < 100) : twoDigits (fixedDigits 2 n) = .ok n := by
  have hvalue : n / 10 % 10 * 10 + n % 10 = n := by omega
  simp only [fixedDigits_two, twoDigits, oneDigit_digit, bind, Except.bind, hvalue]

theorem fourDigits_fixedDigits {n : Nat} (h : n < 10000) :
    fourDigits (fixedDigits 4 n) = .ok (n : Int) := by
  have hvalue : (((n / 1000 % 10) * 10 + n / 100 % 10) * 10 + n / 10 % 10) * 10 + n % 10 = n := by
    omega
  have hmap : ([digit (n / 1000), digit (n / 100), digit (n / 10), digit n].mapM oneDigit) =
      .ok [n / 1000 % 10, n / 100 % 10, n / 10 % 10, n % 10] := by
    simp [oneDigit_digit]
    rfl
  rw [fixedDigits_four, fourDigits, if_neg (by simp), hmap]
  have hdigits : (([n / 1000 % 10, n / 100 % 10, n / 10 % 10, n % 10] : List Nat).flatMap
      fun value => ([(value : Int)] : List Int)).foldl (fun value digit => value * 10 + digit) 0 =
        (n : Int) := by
    conv_rhs => rw [← hvalue]
    simp
  exact congrArg Except.ok hdigits

theorem monthFromAbbrev_monthShort {month : Nat} (h : 1 ≤ month) (h' : month ≤ 12) :
    monthFromAbbrev (monthShort month) = .ok month := by
  interval_cases month <;> rfl

theorem validateWeekday_shortName (weekday : Weekday) :
    validateWeekdayShort weekday.shortName = .ok () ∧
      validateWeekdayLong weekday.shortName = .ok () := by
  cases weekday <;> exact ⟨rfl, rfl⟩

def IsName (name : Bytes) : Prop :=
  name.length = 3 ∧ ∀ octet ∈ name, 65 ≤ octet.toNat ∧ octet.toNat < 128

instance (name : Bytes) : Decidable (IsName name) :=
  @instDecidableAnd _ _ _ (List.decidableBAll _ name)

theorem isName_shortName (weekday : Weekday) : IsName weekday.shortName := by
  cases weekday <;> decide

theorem isName_monthShort {month : Nat} (h : 1 ≤ month) (h' : month ≤ 12) :
    IsName (monthShort month) := by
  interval_cases month <;> decide

theorem writeClock_eq {hour minute second : Nat} (hhour : hour < 24) (hminute : minute < 60)
    (hsecond : second < 60) :
    writeClock hour minute second = fixedDigits 2 hour ++ 58 ::
      (fixedDigits 2 minute ++ 58 :: fixedDigits 2 second) := by
  have hcolon : utf8 ":" = [58] := rfl
  rw [writeClock, zeroPadded_eq_fixedDigits (by omega), zeroPadded_eq_fixedDigits (by omega),
    zeroPadded_eq_fixedDigits (by omega), hcolon]
  simp

theorem parseHmsToken_writeClock {hour minute second : Nat} (hhour : hour < 24)
    (hminute : minute < 60) (hsecond : second < 60) :
    parseHmsToken (writeClock hour minute second) = .ok (hour, minute, second) := by
  have hplain (n : Nat) : ∀ octet ∈ fixedDigits 2 n, (octet == 58) = false := fun octet hmem => by
    simpa using (not_whitespace_of_digit (isAsciiDigit_of_mem hmem)).2.1
  have hcolon : (58 : UInt8) == 58 := by simp
  have hsplit : (writeClock hour minute second).splitOnP (· == 58) =
      [fixedDigits 2 hour, fixedDigits 2 minute, fixedDigits 2 second] := by
    rw [writeClock_eq hhour hminute hsecond,
      List.splitOnP_append_cons_of_forall_mem (hplain hour) _ hcolon,
      List.splitOnP_append_cons_of_forall_mem (hplain minute) _ hcolon,
      List.splitOnP_eq_singleton (hplain second)]
  rw [parseHmsToken, hsplit]
  simp only [bind, Except.bind]
  rw [parseDecimal_fixedDigits (by omega) (by omega) (by omega),
    parseDecimal_fixedDigits (by omega) (by omega) (by omega),
    parseDecimal_fixedDigits (by omega) (by omega) (by omega)]

/-! ## Dates -/

def longText (name : Bytes) (day : Nat) (month : Bytes) (year : Nat) (clock : Bytes) : Bytes :=
  name ++ 44 :: 32 :: (fixedDigits 2 day ++ 32 ::
  (month ++ 32 :: (fixedDigits 4 year ++ 32 :: clock)))

theorem writeLong_eq {dt : DateTime} (hyear : 0 ≤ dt.parts.year ∧ dt.parts.year ≤ 9999) :
    writeLong dt = longText dt.weekday.shortName dt.parts.day (monthShort dt.parts.month)
      dt.parts.year.toNat (writeClock dt.parts.hour dt.parts.minute dt.parts.second) := by
  have hday := (month_day_lt dt).2
  have hcomma : utf8 ", " = [44, 32] := rfl
  have hblank : utf8 " " = [32] := rfl
  have hyear' : writeYear dt.parts.year = fixedDigits 4 dt.parts.year.toNat := by
    rw [writeYear, if_pos hyear, zeroPadded_eq_fixedDigits (by omega)]
  rw [writeLong, hyear', zeroPadded_eq_fixedDigits (by omega), longText, hcomma, hblank]
  simp

theorem not_whitespace_of_name {name : Bytes} (h : IsName name) :
    name ≠ [] ∧ ∀ octet ∈ name, isAsciiWhitespace octet = false := by
  obtain ⟨hlength, hletters⟩ := h
  have hne : name ≠ [] := by
    rintro rfl
    cases hlength
  refine ⟨hne, fun octet hmem => ?_⟩
  have hletter := (hletters octet hmem).1
  have hne (n : Nat) (hn : n < 65) : octet ≠ UInt8.ofNat n := by
    rintro rfl
    rw [UInt8.toNat_ofNat', Nat.mod_eq_of_lt (by omega)] at hletter
    omega
  have h32 := hne 32 (by omega)
  have h9 := hne 9 (by omega)
  have h10 := hne 10 (by omega)
  have h12 := hne 12 (by omega)
  have h13 := hne 13 (by omega)
  simp only [isAsciiWhitespace, Bool.or_eq_false_iff, beq_eq_false_iff_ne]
  exact ⟨⟨⟨⟨h32, h9⟩, h10⟩, h12⟩, h13⟩

theorem not_whitespace_fixedDigits {width : Nat} (hwidth : 0 < width) (n : Nat) :
    fixedDigits width n ≠ [] ∧ ∀ octet ∈ fixedDigits width n, isAsciiWhitespace octet = false := by
  refine ⟨?_, fun octet hmem => (not_whitespace_of_digit (isAsciiDigit_of_mem hmem)).1⟩
  intro hnil
  have hlength := length_fixedDigits width n
  rw [hnil] at hlength
  simp at hlength
  omega

theorem not_whitespace_writeClock {hour minute second : Nat} (hhour : hour < 24)
    (hminute : minute < 60) (hsecond : second < 60) :
    writeClock hour minute second ≠ [] ∧
      ∀ octet ∈ writeClock hour minute second, isAsciiWhitespace octet = false := by
  rw [writeClock_eq hhour hminute hsecond]
  refine ⟨by simp, fun octet hmem => ?_⟩
  have hdigits (n : Nat) : octet ∈ fixedDigits 2 n → isAsciiWhitespace octet = false :=
    (not_whitespace_fixedDigits (by omega) n).2 octet
  simp only [List.mem_append, List.mem_cons] at hmem
  rcases hmem with h | rfl | h | rfl | h
  · exact hdigits _ h
  · rfl
  · exact hdigits _ h
  · rfl
  · exact hdigits _ h

/-! ## RFC 2822 -/

theorem parseRfc2822_text {dt : DateTime} (hyear : 0 ≤ dt.parts.year ∧ dt.parts.year ≤ 9999)
    {zone : Bytes} (hzone : zone ≠ [] ∧ ∀ octet ∈ zone, isAsciiWhitespace octet = false) :
    parseRfc2822 (writeLong dt ++ 32 :: zone) = (parseRfc2822Zone zone).bind fun offset =>
      assemble (dt.parts.year, dt.parts.month, dt.parts.day)
        (dt.parts.hour, dt.parts.minute, dt.parts.second, 0) none (some offset) none := by
  obtain ⟨hmonth, hmonth', -, -⟩ := dt.parts_date
  obtain ⟨hhour, hminute, hsecond, -⟩ := dt.parts_time
  obtain ⟨-, hday⟩ := month_day_lt dt
  have hname := not_whitespace_of_name (isName_shortName dt.weekday)
  have hmonthName := not_whitespace_of_name (isName_monthShort hmonth hmonth')
  have hdigits := not_whitespace_fixedDigits (show 0 < 2 by omega) dt.parts.day
  have hdigits' := not_whitespace_fixedDigits (show 0 < 4 by omega) dt.parts.year.toNat
  have hclock := not_whitespace_writeClock hhour hminute hsecond
  have hcomma : ∀ octet ∈ dt.weekday.shortName ++ [44], isAsciiWhitespace octet = false := by
    intro octet hmem
    rcases List.mem_append.mp hmem with h | h
    · exact hname.2 octet h
    · rw [List.mem_singleton.mp h]
      rfl
  have htokens : tokensOf (writeLong dt ++ 32 :: zone) =
      [dt.weekday.shortName ++ [44], fixedDigits 2 dt.parts.day, monthShort dt.parts.month,
        fixedDigits 4 dt.parts.year.toNat,
        writeClock dt.parts.hour dt.parts.minute dt.parts.second, zone] := by
    have htext : writeLong dt ++ 32 :: zone = (dt.weekday.shortName ++ [44]) ++ 32 ::
        (fixedDigits 2 dt.parts.day ++ 32 :: (monthShort dt.parts.month ++ 32 ::
          (fixedDigits 4 dt.parts.year.toNat ++ 32 ::
            (writeClock dt.parts.hour dt.parts.minute dt.parts.second ++ 32 :: zone)))) := by
      rw [writeLong_eq hyear, longText]
      simp
    rw [htext, tokensOf_cons (by simp) hcomma, tokensOf_cons hdigits.1 hdigits.2,
      tokensOf_cons hmonthName.1 hmonthName.2, tokensOf_cons hdigits'.1 hdigits'.2,
      tokensOf_cons hclock.1 hclock.2, tokensOf_singleton hzone.1 hzone.2]
  have hyearValue : parseRfc2822Year (fixedDigits 4 dt.parts.year.toNat) = .ok dt.parts.year := by
    rw [parseRfc2822Year, parseDecimal_fixedDigits (by omega) (by omega) (by omega)]
    simp [bind, Except.bind]
    omega
  unfold parseRfc2822
  rw [htokens]
  simp only [dayToken, nextToken, bind, Except.bind, List.getLast?_concat, if_true,
    List.dropLast_concat, (validateWeekday_shortName dt.weekday).2,
    parseDecimal_fixedDigits (show dt.parts.day < 10 ^ 2 by omega) (show 1 ≤ 2 by omega) le_rfl,
    monthFromAbbrev_monthShort hmonth hmonth', hyearValue,
    parseHmsToken_writeClock hhour hminute hsecond]
  cases parseRfc2822Zone zone with
  | error e => rfl
  | ok offset => simp

theorem parseRfc2822Zone_offset {offset : Int} (hminutes : offset.natAbs % 60 = 0) :
    (offset.natAbs < 86400 → parseRfc2822Zone (writeOffsetCompact offset) = .ok offset) ∧
      (¬offset.natAbs < 86400 → ∃ e, parseRfc2822Zone (writeOffsetCompact offset) = .error e) := by
  obtain ⟨sign, hsign, htext⟩ : ∃ sign : UInt8, (sign = if offset < 0 then 45 else 43) ∧
      writeOffsetCompact offset = sign :: (zeroPadded 2 (offset.natAbs / 3600) ++
        zeroPadded 2 (offset.natAbs % 3600 / 60)) := by
    refine ⟨_, rfl, ?_⟩
    have hplus : utf8 "+" = [43] := rfl
    have hminus : utf8 "-" = [45] := rfl
    rw [writeOffsetCompact, writeSign, hplus, hminus]
    split <;> simp
  have hname : (["gmt", "ut", "utc", "z"].any fun name =>
      TimeZone.eqIgnoreAsciiCase (writeOffsetCompact offset) (utf8 name)) = false := by
    have hlower : TimeZone.toAsciiLowercase sign = sign := by
      rw [hsign]
      split <;> rfl
    have hletters : sign ≠ 103 ∧ sign ≠ 117 ∧ sign ≠ 122 := by
      rw [hsign]
      split <;> decide
    have hg : (utf8 "gmt").map TimeZone.toAsciiLowercase = [103, 109, 116] := rfl
    have hu : (utf8 "ut").map TimeZone.toAsciiLowercase = [117, 116] := rfl
    have hc : (utf8 "utc").map TimeZone.toAsciiLowercase = [117, 116, 99] := rfl
    have hz : (utf8 "z").map TimeZone.toAsciiLowercase = [122] := rfl
    simp [TimeZone.eqIgnoreAsciiCase, htext, hlower, hg, hu, hc, hz, hletters]
  have hsigned : sign = 43 ∨ sign = 45 := by
    rw [hsign]
    split <;> simp
  unfold parseRfc2822Zone
  rw [hname, if_neg (by simp), htext, zeroPadded_eq_fixedDigits (n := offset.natAbs % 3600 / 60)
    (by omega)]
  by_cases hhours : offset.natAbs / 3600 < 100
  · rw [zeroPadded_eq_fixedDigits (by omega)]
    have hfields : fixedDigits 2 (offset.natAbs / 3600) ++
        fixedDigits 2 (offset.natAbs % 3600 / 60) =
          [digit (offset.natAbs / 3600 / 10), digit (offset.natAbs / 3600),
            digit (offset.natAbs % 3600 / 60 / 10), digit (offset.natAbs % 3600 / 60)] := rfl
    have hh := twoDigits_fixedDigits hhours
    have hm := @twoDigits_fixedDigits (offset.natAbs % 3600 / 60) (by omega)
    rw [fixedDigits_two] at hh hm
    rw [hfields]
    simp only [hsigned, if_true, hh, hm, bind, Except.bind]
    constructor
    · intro hday
      have hvalue : ((offset.natAbs / 3600 : Nat) : Int) * 3600 +
          ((offset.natAbs % 3600 / 60 : Nat) : Int) * 60 = offset.natAbs := by omega
      rw [if_neg (by omega), hvalue, hsign]
      by_cases hneg : offset < 0
      · rw [if_pos hneg, if_pos rfl]
        exact congrArg Except.ok (by omega)
      · rw [if_neg hneg, if_neg (by decide)]
        exact congrArg Except.ok (by omega)
    · intro hday
      rw [if_pos (by omega)]
      exact ⟨_, rfl⟩
  · -- three digits or more are too many
    have hlength : 5 < (sign :: (zeroPadded 2 (offset.natAbs / 3600) ++
        fixedDigits 2 (offset.natAbs % 3600 / 60))).length := by
      have hdigits : ¬(decimalDigits (offset.natAbs / 3600)).length ≤ 2 := fun hle =>
        hhours (length_decimalDigits_le.mp hle)
      simp only [List.length_cons, List.length_append, length_fixedDigits, zeroPadded]
      omega
    refine ⟨fun hday => absurd hday (by omega), fun _ => ?_⟩
    split
    · next heq =>
      rw [heq] at hlength
      simp at hlength
    · exact ⟨_, rfl⟩

theorem isAsciiDigit_of_mem_decimalDigits {n : Nat} {octet : UInt8}
    (h : octet ∈ decimalDigits n) : isAsciiDigit octet = true := by
  induction n using Nat.strong_induction_on with
  | _ n ih =>
    rcases Nat.lt_or_ge n 10 with hlt | hge
    · rw [decimalDigits_digit hlt, List.mem_singleton] at h
      rw [h]
      exact isAsciiDigit_digit n
    · rw [decimalDigits_step hge, List.mem_append, List.mem_singleton] at h
      rcases h with h | rfl
      · exact ih (n / 10) (by omega) h
      · exact isAsciiDigit_digit n

theorem not_whitespace_writeOffsetCompact (offset : Int) :
    writeOffsetCompact offset ≠ [] ∧
      ∀ octet ∈ writeOffsetCompact offset, isAsciiWhitespace octet = false := by
  have hpadded (n : Nat) : ∀ octet ∈ zeroPadded 2 n, isAsciiWhitespace octet = false := by
    intro octet hmem
    rcases List.mem_append.mp hmem with h | h
    · rw [List.eq_of_mem_replicate h]
      rfl
    · exact (not_whitespace_of_digit (isAsciiDigit_of_mem_decimalDigits h)).1
  have hsign : writeSign offset ≠ [] ∧
      ∀ octet ∈ writeSign offset, isAsciiWhitespace octet = false := by
    unfold writeSign
    split
    · exact ⟨nofun, List.forall_mem_singleton.mpr rfl⟩
    · exact ⟨nofun, List.forall_mem_singleton.mpr rfl⟩
  refine ⟨by simp [writeOffsetCompact, hsign.1], fun octet hmem => ?_⟩
  rcases List.mem_append.mp hmem with h | h
  · rcases List.mem_append.mp h with h | h
    · exact hsign.2 octet h
    · exact hpadded _ octet h
  · exact hpadded _ octet h

/-! ## HTTP dates -/

theorem fixedDigits_ascii (width n : Nat) : ∀ octet ∈ fixedDigits width n, octet.toNat < 128 :=
  fun _ hmem => (not_whitespace_of_digit (isAsciiDigit_of_mem hmem)).2.2

theorem trim_eq {first last : UInt8} {inner : Bytes}
    (hascii : ∀ octet ∈ first :: (inner ++ [last]), octet.toNat < 128)
    (hfirst : 32 < first.toNat) (hlast : 32 < last.toNat) :
    trim (first :: (inner ++ [last])) = first :: (inner ++ [last]) := by
  have hstays (octet : UInt8) (hlow : 32 < octet.toNat) (hhigh : octet.toNat < 128) :
      isWhitespace (Char.ofNat octet.toNat) = false := by
    generalize octet.toNat = n at hlow hhigh
    interval_cases n <;> rfl
  have hfirst' := hstays first hfirst (hascii first (by simp))
  have hlast' := hstays last hlast (hascii last (by simp))
  have htext := utf8_ofList_ascii hascii
  rw [trim, fromUtf8_ascii hascii]
  simp only [String.toList_ofList]
  rw [List.map_cons, List.dropWhile_cons_of_neg (by simp [hfirst']), List.map_append, List.map_cons,
    List.map_nil, List.reverse_cons, List.reverse_append, List.reverse_singleton,
    List.singleton_append, List.cons_append, List.dropWhile_cons_of_neg (by simp [hlast'])]
  rw [List.map_cons, List.map_append, List.map_cons, List.map_nil] at htext
  simpa using htext

theorem parseImfFixdate_text {name month : Bytes} (hname : IsName name) (hmonth : IsName month)
    (day year hour minute second : Nat) :
    parseImfFixdate (longText name day month year (fixedDigits 2 hour ++ 58 ::
        (fixedDigits 2 minute ++ 58 :: fixedDigits 2 second)) ++ [32, 71, 77, 84]) = (do
      validateWeekdayShort name
      let day ← twoDigits (fixedDigits 2 day)
      let month ← monthFromAbbrev month
      let year ← fourDigits (fixedDigits 4 year)
      let hour ← twoDigits (fixedDigits 2 hour)
      let minute ← twoDigits (fixedDigits 2 minute)
      let second ← twoDigits (fixedDigits 2 second)
      assemble (year, month, day) (hour, minute, second, 0) none (some 0) none) := by
  -- both names are three letters, so every field has its place
  obtain ⟨a, b, c, rfl⟩ := List.length_eq_three.mp hname.1
  obtain ⟨x, y, z, rfl⟩ := List.length_eq_three.mp hmonth.1
  rw [fixedDigits_four]
  have htext : longText [a, b, c] day [x, y, z] year (fixedDigits 2 hour ++ 58 ::
      (fixedDigits 2 minute ++ 58 :: fixedDigits 2 second)) ++ [32, 71, 77, 84] =
        [a, b, c, 44, 32, digit (day / 10), digit day, 32, x, y, z, 32, digit (year / 1000),
          digit (year / 100), digit (year / 10), digit year, 32, digit (hour / 10), digit hour, 58,
          digit (minute / 10), digit minute, 58, digit (second / 10), digit second,
          32, 71, 77, 84] := by
    rw [longText, fixedDigits_four]
    rfl
  have hcomma : utf8 ", " = [44, 32] := rfl
  have hblank : utf8 " " = [32] := rfl
  have hcolon : utf8 ":" = [58] := rfl
  have hgmt : utf8 " GMT" = [32, 71, 77, 84] := rfl
  rw [htext, parseImfFixdate, if_neg (by simp [hasAt, slice, hcomma, hblank, hcolon, hgmt])]
  rfl

theorem parseHttp_text {dt : DateTime} (hyear : 0 ≤ dt.parts.year ∧ dt.parts.year ≤ 9999) :
    (∃ dt', assemble (dt.parts.year, dt.parts.month, dt.parts.day)
        (dt.parts.hour, dt.parts.minute, dt.parts.second, 0) none (some 0) none = .ok dt') →
      parseHttp (writeLong dt ++ utf8 " GMT") =
        assemble (dt.parts.year, dt.parts.month, dt.parts.day)
          (dt.parts.hour, dt.parts.minute, dt.parts.second, 0) none (some 0) none := by
  rintro ⟨dt', hassemble⟩
  obtain ⟨hmonth, hmonth', -, -⟩ := dt.parts_date
  obtain ⟨hhour, hminute, hsecond, -⟩ := dt.parts_time
  obtain ⟨-, hday⟩ := month_day_lt dt
  have hname := isName_shortName dt.weekday
  have hmonthName := isName_monthShort hmonth hmonth'
  have hgmt : utf8 " GMT" = [32, 71, 77, 84] := rfl
  have hparse := parseImfFixdate_text hname hmonthName dt.parts.day dt.parts.year.toNat
    dt.parts.hour dt.parts.minute dt.parts.second
  rw [(validateWeekday_shortName dt.weekday).1, twoDigits_fixedDigits hday,
    monthFromAbbrev_monthShort hmonth hmonth', fourDigits_fixedDigits (by omega),
    twoDigits_fixedDigits (by omega), twoDigits_fixedDigits (by omega),
    twoDigits_fixedDigits (by omega)] at hparse
  simp only [bind, Except.bind, Int.toNat_of_nonneg hyear.1, hassemble] at hparse
  rw [writeLong_eq hyear, writeClock_eq hhour hminute hsecond, hgmt]
  generalize htext : longText dt.weekday.shortName dt.parts.day (monthShort dt.parts.month)
    dt.parts.year.toNat (fixedDigits 2 dt.parts.hour ++ 58 ::
      (fixedDigits 2 dt.parts.minute ++ 58 :: fixedDigits 2 dt.parts.second)) ++
        [32, 71, 77, 84] = text at hparse ⊢
  have hascii : ∀ octet ∈ text, octet.toNat < 128 := by
    intro octet hmem
    have hdigits (width n : Nat) : octet ∈ fixedDigits width n → octet.toNat < 128 :=
      fixedDigits_ascii width n octet
    have hletters : octet ∈ dt.weekday.shortName ∨ octet ∈ monthShort dt.parts.month →
        octet.toNat < 128 := by
      rintro (h | h)
      · exact (hname.2 octet h).2
      · exact (hmonthName.2 octet h).2
    rw [← htext] at hmem
    simp only [longText, List.mem_append, List.mem_cons, List.not_mem_nil, or_false] at hmem
    rcases hmem with (h | rfl | rfl | h | rfl | h | rfl | h | rfl | h | rfl | h | rfl | h) |
      rfl | rfl | rfl | rfl
    case inl.inl => exact hletters (.inl h)
    all_goals
      first
      | exact hdigits _ _ h
      | exact hletters (.inr h)
      | decide
  have htrim : trim text = text := by
    obtain ⟨a, b, c, hletters⟩ := List.length_eq_three.mp hname.1
    obtain ⟨inner, hinner⟩ : ∃ inner, text = a :: (inner ++ [84]) := by
      refine ⟨b :: c :: 44 :: 32 :: (fixedDigits 2 dt.parts.day ++ 32 ::
        (monthShort dt.parts.month ++ 32 :: (fixedDigits 4 dt.parts.year.toNat ++ 32 ::
          (fixedDigits 2 dt.parts.hour ++ 58 :: (fixedDigits 2 dt.parts.minute ++ 58 ::
            (fixedDigits 2 dt.parts.second ++ [32, 71, 77])))))), ?_⟩
      rw [← htext, longText, hletters]
      simp
    have hfirst := (hname.2 a (by simp [hletters])).1
    rw [hinner] at hascii ⊢
    exact trim_eq hascii (by omega) (by decide)
  have hall : text.all (fun octet => decide (octet < 128)) = true := by
    simp only [List.all_eq_true, decide_eq_true_eq]
    exact fun octet hmem => UInt8.lt_iff_toNat_lt.mpr (hascii octet hmem)
  unfold parseHttp
  simp only [htrim, hall, hparse, not_true_eq_false, if_false]
  exact hassemble.symm

/-! ## Strict output -/

theorem display_eq_writeFormat (dt : DateTime) (format : Format) :
    display dt format = writeFormat dt format := by
  by_cases hfits : FitsDigits dt format
  · exact display_eq hfits
  · have hfails := fails_format dt hfits ⟨List.replicate MAX_FORMATTED_LENGTH 0, 0⟩
    simp [display, formatInto, hfails]

def InYears (year : Int) : Prop := 0 ≤ year ∧ year ≤ 9999

instance (year : Int) : Decidable (InYears year) := inferInstanceAs (Decidable (_ ∧ _))

def DateTime.printedYear (dt : DateTime) : Format → Int
  | .httpDate => (dt.inTimezone .utc).year
  | _ => dt.year

/-- Mail states the offset in minutes, and HTTP none. -/
def DateTime.OffsetExpressible (dt : DateTime) : Format → Prop
  | .rfc2822 => dt.offset.natAbs % 60 = 0
  | _ => True

/-- Strict output is given for the values that the format expresses, and read back to the
second. -/
structure StrictOutput (source : ZoneSource) (dt : DateTime) (format : Format) : Prop where
  accepts : (∃ text, dt.tryFormat format = .ok text) ↔
    InYears (dt.printedYear format) ∧ dt.OffsetExpressible format
  reads : ∀ text, dt.tryFormat format = .ok text →
    ∃ dt', parseWithFormat source text format = .ok dt' ∧ dt'.secs = dt.secs ∧ dt'.nanos = 0

theorem assemble_seconds (dt : DateTime) (hlimit : dt.offset.natAbs ≤ 93599) :
    ∃ dt', assemble (dt.parts.year, dt.parts.month, dt.parts.day)
        (dt.parts.hour, dt.parts.minute, dt.parts.second, 0) none (some dt.offset) none = .ok dt' ∧
      dt'.secs = dt.secs ∧ dt'.nanos = 0 := by
  obtain ⟨dt', hassemble, hsecs, hnanos, -⟩ := assemble_parts { dt with nanos := 0 } hlimit
  exact ⟨dt', hassemble, hsecs, hnanos⟩

theorem tryFormat_eq_ok_iff {dt : DateTime} {format : Format} {text : Bytes}
    (hformat : format = .rfc2822 ∨ format = .httpDate) :
    dt.tryFormat format = .ok text ↔
      InYears dt.year ∧ dt.OffsetExpressible format ∧ text = writeFormat dt format := by
  have hminutes : dt.offset.tmod 60 ≠ 0 ↔ ¬dt.offset.natAbs % 60 = 0 := by
    rw [Ne, ← Int.dvd_iff_tmod_eq_zero]
    omega
  have htime : format ≠ .timeOnly := by rcases hformat with rfl | rfl <;> decide
  have hexpressible : ((format = .rfc3339 ∨ format = .rfc9557 ∨ format = .iso8601 ∨
      format = .rfc2822) ∧ dt.offset.tmod 60 ≠ 0) ↔ ¬dt.OffsetExpressible format := by
    rw [hminutes]
    rcases hformat with rfl | rfl <;> simp [DateTime.OffsetExpressible]
  unfold DateTime.tryFormat
  rw [display_eq_writeFormat]
  by_cases hyear : InYears dt.year
  · rw [if_neg fun h => h.2 hyear]
    by_cases hoffset : dt.OffsetExpressible format
    · rw [if_neg fun h => hexpressible.mp h hoffset]
      simp [hyear, hoffset, eq_comm]
    · rw [if_pos (hexpressible.mpr hoffset)]
      simp [hoffset]
  · rw [if_pos ⟨htime, hyear⟩]
    simp [hyear]

theorem tryFormat_ok_iff {dt : DateTime} {format : Format}
    (hformat : format = .rfc2822 ∨ format = .httpDate) :
    (∃ text, dt.tryFormat format = .ok text) ↔
      InYears dt.year ∧ dt.OffsetExpressible format := by
  simp only [tryFormat_eq_ok_iff hformat]
  exact ⟨fun ⟨_, hyear, hoffset, _⟩ => ⟨hyear, hoffset⟩,
    fun ⟨hyear, hoffset⟩ => ⟨_, hyear, hoffset, rfl⟩⟩

theorem strictOutput_rfc2822_iff (source : ZoneSource) (dt : DateTime) :
    StrictOutput source dt .rfc2822 ↔
      (InYears dt.year → dt.offset.natAbs % 60 = 0 → dt.offset.natAbs < 86400) := by
  have htext : writeFormat dt .rfc2822 = writeLong dt ++ 32 :: writeOffsetCompact dt.offset := by
    have hblank : utf8 " " = [32] := rfl
    rw [writeFormat, writeRfc2822, hblank]
    simp
  have hread (hyear : InYears dt.year) : parseWithFormat source (writeFormat dt .rfc2822) .rfc2822 =
      (parseRfc2822Zone (writeOffsetCompact dt.offset)).bind fun offset =>
        assemble (dt.parts.year, dt.parts.month, dt.parts.day)
          (dt.parts.hour, dt.parts.minute, dt.parts.second, 0) none (some offset) none := by
    rw [htext, parseWithFormat]
    exact parseRfc2822_text hyear (not_whitespace_writeOffsetCompact dt.offset)
  constructor
  · intro h hyear hminutes
    by_contra hday
    obtain ⟨dt', hparse, -⟩ :=
      h.reads _ ((tryFormat_eq_ok_iff (.inl rfl)).mpr ⟨hyear, hminutes, rfl⟩)
    obtain ⟨e, herror⟩ := (parseRfc2822Zone_offset hminutes).2 hday
    rw [hread hyear, herror] at hparse
    cases hparse
  · intro h
    refine ⟨tryFormat_ok_iff (.inl rfl), fun text hok => ?_⟩
    obtain ⟨hyear, hminutes, rfl⟩ := (tryFormat_eq_ok_iff (.inl rfl)).mp hok
    have hday := h hyear hminutes
    rw [hread hyear, (parseRfc2822Zone_offset hminutes).1 hday]
    exact assemble_seconds dt (by omega)

theorem strictOutput_httpDate_iff (source : ZoneSource) (dt : DateTime) :
    StrictOutput source dt .httpDate ↔
      (InYears dt.year ↔ InYears (dt.inTimezone .utc).year) := by
  have haccepts := @tryFormat_ok_iff dt .httpDate (.inr rfl)
  constructor
  · intro h
    have := haccepts.symm.trans h.accepts
    simpa [DateTime.OffsetExpressible, DateTime.printedYear] using this
  · intro h
    refine ⟨haccepts.trans ?_, fun text hok => ?_⟩
    · simpa [DateTime.OffsetExpressible, DateTime.printedYear] using h
    · obtain ⟨hyear, -, rfl⟩ := (tryFormat_eq_ok_iff (.inr rfl)).mp hok
      have hutc := h.mp hyear
      obtain ⟨dt', hassemble, hsecs, hnanos⟩ :=
        assemble_seconds (dt.inTimezone .utc) (by simp [DateTime.inTimezone, TimeZone.offsetAt])
      refine ⟨dt', ?_, hsecs, hnanos⟩
      have hzero : (dt.inTimezone .utc).offset = 0 := rfl
      rw [hzero] at hassemble
      rw [parseWithFormat, writeFormat, writeHttpDate, parseHttp_text hutc ⟨dt', hassemble⟩,
        hassemble]

/-- Strict mail and HTTP output is right for the offsets below a day, and for the values of
which the local year is in range exactly when the year in UTC is. -/
theorem strictOutput_iff (source : ZoneSource) (dt : DateTime) :
    (StrictOutput source dt .rfc2822 ↔
        (InYears dt.year → dt.offset.natAbs % 60 = 0 → dt.offset.natAbs < 86400)) ∧
      (StrictOutput source dt .httpDate ↔
        (InYears dt.year ↔ InYears (dt.inTimezone .utc).year)) :=
  ⟨strictOutput_rfc2822_iff source dt, strictOutput_httpDate_iff source dt⟩

/-- The last second of the year 9999 in UTC is refused one hour east of Greenwich, and an
offset of 24 hours is written and not read. -/
theorem strictOutput_fails :
    ¬StrictOutput noZones yearTenThousand .httpDate ∧
      ¬StrictOutput noZones (epochAt ⟨86400, by decide⟩) .rfc2822 := by
  constructor
  · intro h
    obtain ⟨text, htext⟩ := h.accepts.mpr ⟨by decide, trivial⟩
    obtain ⟨hyear, -⟩ := (tryFormat_eq_ok_iff (.inr rfl)).mp htext
    exact absurd hyear (by decide)
  · rw [strictOutput_rfc2822_iff]
    intro h
    exact absurd (h (by decide) (by decide)) (by decide)

end Stdx.Time
