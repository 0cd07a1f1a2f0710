import Mathlib
import Stdx.Time.FormatAgreement
import Stdx.Time.Parse

/-!
# RFC 3339 round trip

The strict parsers read back the text of the strict formatter, except for an offset of a
day or more: the formatter writes its hours, which the parser rejects.
-/

namespace Stdx.Time

open Stdx.Foundation

/-! ## Parsing a text from a position in it -/

namespace Parser

def between (front rest : Bytes) : Parser := ⟨front ++ rest, front.length⟩

@[simp] theorem peek_between_cons (front : Bytes) (octet : UInt8) (rest : Bytes) :
    (between front (octet :: rest)).peek = some octet := by
  simp [peek, between]

@[simp] theorem peek_between_nil (front : Bytes) : (between front []).peek = none := by
  simp [peek, between]

@[simp] theorem bump_between_cons (front : Bytes) (octet : UInt8) (rest : Bytes) :
    (between front (octet :: rest)).bump = between (front ++ [octet]) rest := by
  simp [bump, between]

theorem peek_between (front rest : Bytes) : (between front rest).peek = rest.head? := by
  cases rest <;> simp

@[simp] theorem done_between_nil (front : Bytes) : (between front []).done = true := by
  simp [done, between]

theorem fixedFrom_between (digits : Bytes) (hdigits : ∀ octet ∈ digits, isAsciiDigit octet = true)
    (value : Nat) (front rest : Bytes) :
    fixedFrom digits.length value (between front (digits ++ rest)) =
      .ok (digits.foldl (fun value octet => value * 10 + (octet.toNat - 48)) value,
        between (front ++ digits) rest) := by
  induction digits generalizing value front with
  | nil => simp [fixedFrom]
  | cons octet digits ih =>
    have hdigit := hdigits octet (by simp)
    have hrest := ih (fun o ho => hdigits o (by simp [ho]))
      (value * 10 + (octet.toNat - 48)) (front ++ [octet])
    simp only [List.append_assoc, List.cons_append, List.nil_append] at hrest
    simp [fixedFrom, hdigit, hrest]

theorem fixed_between {width n : Nat} (h : n < 10 ^ width) (front rest : Bytes) :
    (between front (fixedDigits width n ++ rest)).fixed width =
      .ok (n, between (front ++ fixedDigits width n) rest) := by
  have hread := fixedFrom_between (fixedDigits width n) (fun _ => isAsciiDigit_of_mem) 0 front rest
  have hvalue := digitsValue_fixedDigits width n
  rw [Nat.mod_eq_of_lt h] at hvalue
  rw [length_fixedDigits] at hread
  rw [fixed, hread]
  exact congrArg (fun v => Except.ok (v, _)) hvalue

theorem skipDigits_between {digits rest : Bytes}
    (hdigits : ∀ octet ∈ digits, isAsciiDigit octet = true)
    (hstop : ∀ octet, rest.head? = some octet → isAsciiDigit octet = false) {fuel : Nat}
    (hfuel : digits.length ≤ fuel) (front : Bytes) :
    skipDigits fuel (between front (digits ++ rest)) = between (front ++ digits) rest := by
  induction digits generalizing front fuel with
  | nil =>
    cases fuel with
    | zero => simp [skipDigits]
    | succ fuel =>
      have hpeek : (between front rest).peeksDigit = false := by
        rw [peeksDigit, peek_between]
        split
        · next octet h => exact hstop octet h
        · rfl
      simp [skipDigits, hpeek]
  | cons octet digits ih =>
    cases fuel with
    | zero => simp at hfuel
    | succ fuel =>
      have hpeek : (between front (octet :: (digits ++ rest))).peeksDigit = true := by
        simp [peeksDigit, hdigits octet (by simp)]
      have hrest := ih (fun o ho => hdigits o (by simp [ho])) (by simpa using hfuel)
        (front ++ [octet])
      simp only [List.append_assoc, List.cons_append, List.nil_append] at hrest
      simp [skipDigits, hpeek, hrest]

theorem number_between {digits : Bytes} (hdigits : ∀ octet ∈ digits, isAsciiDigit octet = true)
    (hsmall : digitsValue digits ≤ 9223372036854775807) (front rest : Bytes) :
    (between (front ++ digits) rest).number front.length (front ++ digits).length =
      .ok (digitsValue digits) := by
  have hslice : slice (front ++ digits ++ rest) front.length (front ++ digits).length = digits := by
    simp [slice]
  have hall : digits.all isAsciiDigit = true := by simpa using hdigits
  rw [number, between]
  dsimp only
  have hfits : ¬((digitsValue digits : Int) > I64_MAX) := by
    rw [gt_iff_lt, not_lt]
    show (digitsValue digits : Int) ≤ 9223372036854775807
    omega
  rw [hslice, if_neg (by simp [hall]), if_neg hfits]

theorem digitsValue_cons (octet : UInt8) (digits : Bytes) :
    digitsValue (octet :: digits) =
      (octet.toNat - 48) * 10 ^ digits.length + digitsValue digits := by
  induction digits using List.reverseRecOn with
  | nil => simp [digitsValue]
  | append_singleton digits last ih =>
    rw [← List.cons_append, digitsValue_concat, digitsValue_concat, ih,
      List.length_append, List.length_singleton, Nat.pow_succ]
    ring

theorem fractionFrom_between {digits rest : Bytes}
    (hdigits : ∀ octet ∈ digits, isAsciiDigit octet = true)
    (hstop : ∀ octet, rest.head? = some octet → isAsciiDigit octet = false)
    {fuel significant : Nat} (hfuel : digits.length < fuel)
    (hlength : significant + digits.length ≤ 9) (nanos : Nat) (front : Bytes) :
    fractionFrom fuel nanos significant (10 ^ 9 / 10 ^ (significant + 1))
        (between front (digits ++ rest)) =
      (nanos + digitsValue digits * 10 ^ (9 - significant - digits.length),
        between (front ++ digits) rest) := by
  induction digits generalizing fuel significant nanos front with
  | nil =>
    obtain ⟨fuel, rfl⟩ := Nat.exists_eq_succ_of_ne_zero (Nat.ne_of_gt (Nat.zero_lt_of_lt hfuel))
    rw [fractionFrom, List.nil_append, peek_between]
    cases hhead : rest.head? with
    | none => simp [digitsValue]
    | some octet => simp [digitsValue, hstop octet hhead]
  | cons octet digits ih =>
    obtain ⟨fuel, rfl⟩ := Nat.exists_eq_succ_of_ne_zero (Nat.ne_of_gt (Nat.zero_lt_of_lt hfuel))
    have hdigit := hdigits octet (by simp)
    simp only [List.length_cons] at hfuel hlength
    have hscale : 10 ^ 9 / 10 ^ (significant + 1) / 10 = 10 ^ 9 / 10 ^ (significant + 1 + 1) := by
      rw [Nat.div_div_eq_div_mul, ← Nat.pow_succ]
    have hpower : 10 ^ 9 / 10 ^ (significant + 1) =
        10 ^ digits.length * 10 ^ (9 - significant - (digits.length + 1)) := by
      rw [Nat.pow_div (by omega) (by norm_num), ← Nat.pow_add]
      congr 1
      omega
    have hrest := @ih (fun o ho => hdigits o (by simp [ho])) fuel (significant + 1) (by omega)
        (by omega)
      (nanos + (octet.toNat - 48) * (10 ^ 9 / 10 ^ (significant + 1))) (front ++ [octet])
    simp only [List.append_assoc, List.cons_append, List.nil_append] at hrest
    rw [List.cons_append, fractionFrom, peek_between_cons]
    dsimp only
    rw [if_pos hdigit, if_pos (by omega), bump_between_cons, hscale, hrest, hpower,
      digitsValue_cons]
    have hexp : 9 - (significant + 1) - digits.length = 9 - significant - (digits.length + 1) := by
      omega
    rw [hexp]
    refine Prod.ext ?_ rfl
    dsimp only [List.length_cons]
    ring

/-- What may follow a number: an octet that is neither a digit nor starts a fraction. -/
def EndsNumber (rest : Bytes) : Prop :=
  ∀ octet, rest.head? = some octet → isAsciiDigit octet = false ∧ octet ≠ 46 ∧ octet ≠ 44

theorem writeFraction_cases {nanos : Nat} (h : nanos < 1000000000) :
    (nanos = 0 ∧ writeFraction nanos = []) ∨
      ∃ width n, 0 < width ∧ width ≤ 9 ∧ n < 10 ^ width ∧ nanos = n * 10 ^ (9 - width) ∧
        writeFraction nanos = 46 :: fixedDigits width n := by
  unfold writeFraction
  split
  · exact .inl ⟨by assumption, rfl⟩
  · refine .inr ?_
    split
    · refine ⟨3, nanos / 1000000, by norm_num, by norm_num, by omega, by omega, ?_⟩
      rw [zeroPadded_eq_fixedDigits (by omega)]
      rfl
    · split
      · refine ⟨6, nanos / 1000, by norm_num, by norm_num, by omega, by omega, ?_⟩
        rw [zeroPadded_eq_fixedDigits (by omega)]
        rfl
      · refine ⟨9, nanos, by norm_num, by norm_num, by omega, by omega, ?_⟩
        rw [zeroPadded_eq_fixedDigits (by omega)]
        rfl

theorem parseFraction_between {nanos : Nat} (h : nanos < 1000000000) {rest : Bytes}
    (hend : EndsNumber rest) (front : Bytes) :
    parseFraction (between front (writeFraction nanos ++ rest)) =
      .ok (nanos, between (front ++ writeFraction nanos) rest) := by
  rcases writeFraction_cases h with ⟨rfl, htext⟩ | ⟨width, n, hpos, hwidth, hn, rfl, htext⟩
  · rw [htext, List.nil_append, List.append_nil, parseFraction, peek_between]
    have hhead : ¬(rest.head? = some 46 ∨ rest.head? = some 44) := by
      rintro (h46 | h44)
      · exact (hend _ h46).2.1 rfl
      · exact (hend _ h44).2.2 rfl
    rw [if_neg hhead]
  · rw [htext, List.cons_append, parseFraction, peek_between_cons, if_pos (.inl rfl),
      bump_between_cons]
    have hread := @fractionFrom_between (fixedDigits width n) rest
      (fun _ => isAsciiDigit_of_mem) (fun o ho => (hend o ho).1)
      (between (front ++ [46]) (fixedDigits width n ++ rest)).bytes.length
      0 (by simp [between]; omega) (by simpa using hwidth) 0 (front ++ [46])
    have hvalue := digitsValue_fixedDigits width n
    rw [Nat.mod_eq_of_lt hn] at hvalue
    simp only [hvalue, length_fixedDigits, Nat.zero_add, Nat.sub_zero] at hread
    dsimp only
    rw [show (100000000 : Nat) = 10 ^ 9 / 10 ^ 1 by norm_num, hread]
    dsimp only
    rw [if_neg (by simp [between]; omega)]
    simp

end Parser

/-! ## The pieces of the text -/

theorem head?_fixedDigits {width n : Nat} (hwidth : 0 < width) (rest : Bytes) {octet : UInt8}
    (h : (fixedDigits width n ++ rest).head? = some octet) : isAsciiDigit octet = true := by
  cases htext : fixedDigits width n with
  | nil =>
    have := length_fixedDigits width n
    rw [htext] at this
    simp at this
    omega
  | cons first digits =>
    rw [htext] at h
    simp only [List.cons_append, List.head?_cons, Option.some.injEq] at h
    subst h
    exact isAsciiDigit_of_mem (by rw [htext]; simp)

open Stdx.Time.Parser

theorem eat_between_of_ne {front rest : Bytes} {octet : UInt8} (h : rest.head? ≠ some octet) :
    (between front rest).eat octet = (false, between front rest) := by
  rw [eat, peek_between, if_neg h]

@[simp] theorem eat_between_cons (front : Bytes) (octet : UInt8) (rest : Bytes) :
    (between front (octet :: rest)).eat octet = (true, between (front ++ [octet]) rest) := by
  simp [eat]

@[simp] theorem expect_between_cons (front : Bytes) (octet : UInt8) (rest : Bytes) :
    (between front (octet :: rest)).expect octet = .ok (between (front ++ [octet]) rest) := by
  simp [expect]

theorem skip_year {year : Nat} {tail : Bytes}
    (hstop : ∀ octet, tail.head? = some octet → isAsciiDigit octet = false) :
    skipDigits (between [] (fixedDigits 4 year ++ tail)).bytes.length
      (between [] (fixedDigits 4 year ++ tail)) = between (fixedDigits 4 year) tail :=
  skipDigits_between (fun _ => isAsciiDigit_of_mem) hstop
    (by simp only [between, List.nil_append, List.length_append]; omega) []

theorem number_year {year : Nat} (hyear : year < 10000) (tail : Bytes) :
    (between (fixedDigits 4 year) tail).number 0 4 = .ok year := by
  have hvalue : digitsValue (fixedDigits 4 year) = year := by
    rw [digitsValue_fixedDigits]
    exact Nat.mod_eq_of_lt hyear
  have hnumber := @number_between (fixedDigits 4 year) (fun _ => isAsciiDigit_of_mem)
    (by omega) [] tail
  rw [hvalue] at hnumber
  simpa using hnumber

theorem parseYearMonthDay_between {year month day : Nat} (hyear : year < 10000)
    (hmonth : month < 100) (hday : day < 100) (rest : Bytes) :
    ∃ front, parseYearMonthDay (between [] (fixedDigits 4 year ++
        (45 :: (fixedDigits 2 month ++ (45 :: (fixedDigits 2 day ++ rest)))))) =
      .ok (((year : Int), month, day), between front rest) := by
  have hsign (octet : UInt8) (h : isAsciiDigit octet = false) (tail : Bytes) :
      (fixedDigits 4 year ++ tail).head? ≠ some octet := by
    intro hhead
    have := head?_fixedDigits (by norm_num) tail hhead
    simp [h] at this
  refine ⟨fixedDigits 4 year ++ [45] ++ fixedDigits 2 month ++ [45] ++ fixedDigits 2 day, ?_⟩
  rw [parseYearMonthDay, eat_between_of_ne (hsign 45 (by decide) _)]
  dsimp only
  rw [eat_between_of_ne (hsign 43 (by decide) _)]
  dsimp only
  rw [skip_year (by simp; decide)]
  have hlength : (between (fixedDigits 4 year) (45 :: (fixedDigits 2 month ++
      (45 :: (fixedDigits 2 day ++ rest))))).pos = 4 := by simp [between]
  have hstart : ∀ tail, (between [] tail).pos = 0 := fun _ => rfl
  have hrange : ¬((year : Int) < MIN_YEAR ∨ (year : Int) > MAX_YEAR) := by
    unfold MIN_YEAR MAX_YEAR
    omega
  rw [hlength, hstart, if_neg (by norm_num), number_year hyear]
  simp only [bind, Except.bind, Bool.false_eq_true, if_false, if_neg hrange, expect_between_cons,
    fixed_between (show month < 10 ^ 2 by omega), fixed_between (show day < 10 ^ 2 by omega)]

theorem parseClock_between {hour minute second nanos : Nat} (hhour : hour < 100)
    (hminute : minute < 100) (hsecond : second < 100) (hnanos : nanos < 1000000000) {rest : Bytes}
    (hend : EndsNumber rest) (front : Bytes) :
    ∃ front', parseClock (between front (fixedDigits 2 hour ++ (58 :: (fixedDigits 2 minute ++
        (58 :: (fixedDigits 2 second ++ (writeFraction nanos ++ rest))))))) =
      .ok ((hour, minute, second, nanos), between front' rest) := by
  refine ⟨front ++ fixedDigits 2 hour ++ [58] ++ fixedDigits 2 minute ++ [58] ++
    fixedDigits 2 second ++ writeFraction nanos, ?_⟩
  simp only [parseClock, parseSecond, bind, Except.bind,
    fixed_between (show hour < 10 ^ 2 by omega), expect_between_cons,
    fixed_between (show minute < 10 ^ 2 by omega), eat_between_cons,
    fixed_between (show second < 10 ^ 2 by omega), parseFraction_between hnanos hend]

theorem parseOffset_between_zulu (front : Bytes) :
    parseOffset (between front [90]) = .ok (some 0, between (front ++ [90]) []) := by
  simp [parseOffset]

theorem parseOffsetRest_between {minutes : Nat} (h : minutes < 100) (front : Bytes) :
    parseOffsetRest (between front (58 :: fixedDigits 2 minutes)) =
      .ok ((minutes, 0), between (front ++ [58] ++ fixedDigits 2 minutes) []) := by
  have hfixed := fixed_between (show minutes < 10 ^ 2 by omega) (front ++ [58]) []
  rw [List.append_nil] at hfixed
  simp only [parseOffsetRest, eat_between_cons, hfixed, bind, Except.bind,
    eat_between_of_ne (show ([] : Bytes).head? ≠ some 58 by simp)]

theorem fixed_ok {offset : Int} (hlimit : offset.natAbs ≤ 93599) :
    ∃ allowed, TimeZone.fixed offset = .ok (.fixedZone ⟨offset, allowed⟩) := by
  have hallowed : -OFFSET_LIMIT ≤ offset ∧ offset ≤ OFFSET_LIMIT := by
    unfold OFFSET_LIMIT
    omega
  exact ⟨hallowed, by rw [TimeZone.fixed, dif_neg (by omega)]⟩

theorem parseOffset_between {offset : Int} (hlimit : offset.natAbs ≤ 93599)
    (hminutes : offset.natAbs % 60 = 0) (front : Bytes) :
    ∃ front', parseOffset (between front ((if offset < 0 then 45 else 43) ::
        (fixedDigits 2 (offset.natAbs / 3600) ++
          (58 :: fixedDigits 2 (offset.natAbs % 3600 / 60))))) =
      if offset.natAbs < 86400 then .ok (some offset, between front' [])
      else parseError "offset is out of range" := by
  have hhours := fixed_between (show offset.natAbs / 3600 < 10 ^ 2 by omega)
    (front ++ [if offset < 0 then 45 else 43]) (58 :: fixedDigits 2 (offset.natAbs % 3600 / 60))
  have hrest := parseOffsetRest_between (show offset.natAbs % 3600 / 60 < 100 by omega)
    (front ++ [if offset < 0 then 45 else 43] ++ fixedDigits 2 (offset.natAbs / 3600))
  have hmagnitude : ((offset.natAbs / 3600 : Nat) : Int) * 3600 +
      ((offset.natAbs % 3600 / 60 : Nat) : Int) * 60 + ((0 : Nat) : Int) = offset.natAbs := by
    omega
  have hrange : offset.natAbs / 3600 > 23 ∨ offset.natAbs % 3600 / 60 > 59 ∨ 0 > 59 ↔
      ¬offset.natAbs < 86400 := by omega
  refine ⟨front ++ [if offset < 0 then 45 else 43] ++ fixedDigits 2 (offset.natAbs / 3600) ++
    [58] ++ fixedDigits 2 (offset.natAbs % 3600 / 60), ?_⟩
  unfold parseOffset
  rw [peek_between_cons, bump_between_cons, if_neg (by split <;> decide),
    if_pos (by split <;> decide)]
  simp only [bind, Except.bind, hhours, hrest, hmagnitude, hrange]
  by_cases hday : offset.natAbs < 86400
  · rw [if_neg (by simpa using hday), if_pos hday]
    have hsigned : (if (some (if offset < 0 then (45 : UInt8) else 43) = some 45) then
        -(offset.natAbs : Int) else offset.natAbs) = offset := by
      by_cases hneg : offset < 0
      · simp only [if_pos hneg, if_true]
        omega
      · have h43 : ¬(some (43 : UInt8) = some 45) := by decide
        simp only [if_neg hneg, if_neg h43]
        omega
    obtain ⟨allowed, hfixed⟩ := fixed_ok hlimit
    simp only [hsigned, hfixed]
  · rw [if_pos hday, if_neg hday]

/-! ## The shape of the text -/

theorem slice_between (front digits rest : Bytes) :
    slice (front ++ digits ++ rest) front.length (front.length + digits.length) = digits := by
  simp [slice]

theorem digitsAt_between {width n start stop : Nat} {bytes front rest : Bytes}
    (hbytes : bytes = front ++ fixedDigits width n ++ rest) (hstart : front.length = start)
    (hstop : start + width = stop) : digitsAt bytes start stop = true := by
  subst hbytes hstart hstop
  have hslice := slice_between front (fixedDigits width n) rest
  rw [length_fixedDigits] at hslice
  have hall : (fixedDigits width n).all isAsciiDigit = true := by
    simpa using fun o ho => isAsciiDigit_of_mem ho
  rw [digitsAt, hslice, hall, length_fixedDigits]
  simp

def stampText (year month day hour minute second : Nat) : Bytes :=
  fixedDigits 4 year ++ (45 :: (fixedDigits 2 month ++ (45 :: (fixedDigits 2 day ++
    (84 :: (fixedDigits 2 hour ++ (58 :: (fixedDigits 2 minute ++
      (58 :: fixedDigits 2 second)))))))))

theorem length_stampText (year month day hour minute second : Nat) :
    (stampText year month day hour minute second).length = 19 := by
  simp [stampText]

/-- An offset with the shape that RFC 3339 asks for. -/
def OffsetShape (text : Bytes) : Prop :=
  text = [90] ∨ ∃ sign hours minutes, (sign = 43 ∨ sign = 45) ∧
    text = sign :: (fixedDigits 2 hours ++ (58 :: fixedDigits 2 minutes))

theorem skipFraction_text {stamp : Bytes} (hstamp : stamp.length = 19) {nanos : Nat}
    (hnanos : nanos < 1000000000) {rest : Bytes} (hend : EndsNumber rest) :
    skipFraction (stamp ++ (writeFraction nanos ++ rest)) =
      some (stamp ++ writeFraction nanos).length := by
  unfold skipFraction
  rw [List.getElem?_append_right (by omega), hstamp, Nat.sub_self]
  rcases writeFraction_cases hnanos with ⟨rfl, htext⟩ | ⟨width, n, hpos, hwidth, hn, rfl, htext⟩
  · have hhead : ¬(([] ++ rest)[0]? = some 46) := by
      rw [List.nil_append, ← List.head?_eq_getElem?]
      intro h
      exact (hend 46 h).2.1 rfl
    rw [htext, if_neg hhead]
    simp [hstamp]
  · have hskip := @skipDigits_between (fixedDigits width n) rest
      (fun _ => isAsciiDigit_of_mem) (fun o ho => (hend o ho).1)
      (stamp ++ (46 :: fixedDigits width n ++ rest)).length
      (by simp; omega) (stamp ++ [46])
    have hstart : between (stamp ++ [46]) (fixedDigits width n ++ rest) =
        ⟨stamp ++ (46 :: fixedDigits width n ++ rest), 20⟩ := by
      simp [between, hstamp]
    rw [hstart] at hskip
    rw [htext, if_pos (by simp), hskip]
    simp [between, hstamp]
    omega

theorem endsNumber_of_offsetShape {offset : Bytes} (h : OffsetShape offset) :
    EndsNumber offset := by
  rcases h with rfl | ⟨sign, hours, minutes, hsign, rfl⟩
  · intro octet hhead
    obtain rfl : (90 : UInt8) = octet := by simpa using hhead
    decide
  · intro octet hhead
    obtain rfl : sign = octet := by simpa using hhead
    rcases hsign with rfl | rfl <;> decide

theorem rfc3339Shape_text {year month day hour minute second nanos : Nat}
    (hnanos : nanos < 1000000000) {offset : Bytes} (hoffset : OffsetShape offset) :
    rfc3339Shape (stampText year month day hour minute second ++
      (writeFraction nanos ++ offset)) = true := by
  have hlength := length_stampText year month day hour minute second
  have hoffsetPos : 0 < offset.length := by
    rcases hoffset with rfl | ⟨_, _, _, _, rfl⟩ <;> simp
  have hskip := skipFraction_text hlength hnanos (endsNumber_of_offsetShape hoffset)
  unfold rfc3339Shape
  rw [if_neg, hskip]
  · have hat (k : Nat) : (stampText year month day hour minute second ++
        (writeFraction nanos ++ offset))[(stampText year month day hour minute second ++
          writeFraction nanos).length + k]? = offset[k]? := by
      rw [← List.append_assoc, List.getElem?_append_right (by omega)]
      congr 1
      omega
    have hfirst := hat 0
    rw [Nat.add_zero] at hfirst
    dsimp only
    rw [hfirst, hat 3]
    rcases hoffset with rfl | ⟨sign, hours, minutes, hsign, rfl⟩
    · simp
      omega
    · generalize stampText year month day hour minute second = stamp at *
      generalize writeFraction nanos = fraction at *
      have hhours : digitsAt (stamp ++ (fraction ++ (sign :: (fixedDigits 2 hours ++
          (58 :: fixedDigits 2 minutes))))) ((stamp ++ fraction).length + 1)
          ((stamp ++ fraction).length + 3) = true :=
        @digitsAt_between 2 hours _ _ _ (stamp ++ fraction ++ [sign])
          (58 :: fixedDigits 2 minutes) (by simp) (by simp; omega) (by omega)
      have hminutes : digitsAt (stamp ++ (fraction ++ (sign :: (fixedDigits 2 hours ++
          (58 :: fixedDigits 2 minutes))))) ((stamp ++ fraction).length + 4)
          ((stamp ++ fraction).length + 6) = true :=
        @digitsAt_between 2 minutes _ _ _ (stamp ++ fraction ++ (sign ::
          (fixedDigits 2 hours ++ [58]))) [] (by simp) (by simp; omega) (by omega)
      have hcolon : (sign :: (fixedDigits 2 hours ++ (58 :: fixedDigits 2 minutes)))[3]? =
          some 58 := by simp [fixedDigits]
      have hletter : ¬(some sign = some 90 ∨ some sign = some 122) := by
        rcases hsign with rfl | rfl <;> decide
      have hsign' : some sign = some 43 ∨ some sign = some 45 := by simpa using hsign
      rw [List.getElem?_cons_zero, if_neg hletter, if_pos hsign', hhours, hminutes, hcolon]
      simp
      omega
  · simp [stampText, fixedDigits, digitsAt, slice]
    omega

/-! ## The round trip -/

def TimeZone.IsOffset : TimeZone → Prop
  | .utc => True
  | .fixedZone _ => True
  | .named _ => False

theorem offset_limit {dt : DateTime} (hzone : dt.zone.IsOffset) : dt.offset.natAbs ≤ 93599 := by
  rw [dt.offset_eq]
  cases hcase : dt.zone with
  | utc => simp [TimeZone.offsetAt]
  | fixedZone offset =>
    obtain ⟨hlow, hhigh⟩ := offset.allowed
    unfold OFFSET_LIMIT at hlow hhigh
    simp only [TimeZone.offsetAt]
    omega
  | named entry =>
    rw [hcase] at hzone
    exact hzone.elim

theorem timezoneName_eq_none {dt : DateTime} (hzone : dt.zone.IsOffset) :
    dt.timezoneName = none := by
  unfold DateTime.timezoneName TimeZone.annotationName
  cases hcase : dt.zone with
  | named entry =>
    rw [hcase] at hzone
    exact hzone.elim
  | _ => rfl

def offsetText (offset : Int) (zSuffix : Bool) : Bytes :=
  if zSuffix && offset = 0 then [90]
  else (if offset < 0 then 45 else 43) :: (fixedDigits 2 (offset.natAbs / 3600) ++
    (58 :: fixedDigits 2 (offset.natAbs % 3600 / 60)))

theorem offsetShape_offsetText (offset : Int) (zSuffix : Bool) :
    OffsetShape (offsetText offset zSuffix) := by
  unfold offsetText
  split
  · exact .inl rfl
  · refine .inr ⟨_, _, _, ?_, rfl⟩
    split
    · exact .inr rfl
    · exact .inl rfl

theorem writeIso_eq {dt : DateTime} (hzone : dt.zone.IsOffset)
    (hyear : 0 ≤ dt.parts.year ∧ dt.parts.year ≤ 9999) (hminutes : dt.offset.natAbs % 60 = 0)
    (zSuffix zone : Bool) :
    writeIso dt zSuffix zone =
      stampText dt.parts.year.toNat dt.parts.month dt.parts.day dt.parts.hour dt.parts.minute
        dt.parts.second ++ (writeFraction dt.parts.nanos ++ offsetText dt.offset zSuffix) := by
  obtain ⟨hmonth, hday⟩ := month_day_lt dt
  obtain ⟨hhour, hminute, hsecond, -⟩ := dt.parts_time
  have hlimit := offset_limit hzone
  have htwo {n : Nat} (h : n < 100) : zeroPadded 2 n = fixedDigits 2 n :=
    zeroPadded_eq_fixedDigits h
  have hyearText : writeYear dt.parts.year = fixedDigits 4 dt.parts.year.toNat := by
    rw [writeYear, if_pos hyear]
    exact zeroPadded_eq_fixedDigits (by omega)
  have hzoneText : (if zone then writeZone dt.timezoneName else []) = [] := by
    rw [timezoneName_eq_none hzone]
    cases zone <;> rfl
  have hoffset : (if zSuffix && dt.offset = 0 then utf8 "Z" else writeOffset dt.offset) =
      offsetText dt.offset zSuffix := by
    unfold offsetText
    split
    · rfl
    · rw [writeOffset, if_pos hminutes, htwo (by omega), htwo (by omega)]
      unfold writeSign
      split <;> simp <;> rfl
  unfold writeIso
  dsimp only
  rw [hyearText, hzoneText, hoffset]
  simp only [writeDay, writeClock, htwo hmonth, htwo hday, htwo (show dt.parts.hour < 100 by omega),
    htwo (show dt.parts.minute < 100 by omega), htwo (show dt.parts.second < 100 by omega)]
  simp [stampText]
  rfl

theorem parseOffset_text {offset : Int} (hlimit : offset.natAbs ≤ 93599)
    (hminutes : offset.natAbs % 60 = 0) (zSuffix : Bool) (front : Bytes) :
    ∃ front', parseOffset (between front (offsetText offset zSuffix)) =
      if offset.natAbs < 86400 then .ok (some offset, between front' [])
      else parseError "offset is out of range" := by
  unfold offsetText
  split
  · next hzero =>
    obtain ⟨-, rfl⟩ : zSuffix = true ∧ offset = 0 := by simpa using hzero
    exact ⟨_, parseOffset_between_zulu front⟩
  · exact parseOffset_between hlimit hminutes front

theorem place_offset {localSecs offset : Int} (hlimit : offset.natAbs ≤ 93599) :
    ∃ zone, place localSecs none (some offset) none = .ok (zone, localSecs - offset) ∧
      ∀ secs, zone.offsetAt secs = offset := by
  unfold place
  by_cases hzero : offset = 0
  · subst hzero
    exact ⟨.utc, by simp, fun _ => rfl⟩
  · obtain ⟨allowed, hfixed⟩ := fixed_ok hlimit
    exact ⟨.fixedZone ⟨offset, allowed⟩, by simp [hzero, hfixed, bind, Except.bind], fun _ => rfl⟩

theorem assemble_parts (dt : DateTime) (hlimit : dt.offset.natAbs ≤ 93599) :
    ∃ dt', assemble (dt.parts.year, dt.parts.month, dt.parts.day)
        (dt.parts.hour, dt.parts.minute, dt.parts.second, dt.parts.nanos) none (some dt.offset)
        none = .ok dt' ∧
      dt'.secs = dt.secs ∧ dt'.nanos = dt.nanos ∧ dt'.offset = dt.offset := by
  obtain ⟨hmonth0, hmonth, hday0, hday⟩ := dt.parts_date
  obtain ⟨hhour, hminute, hsecond, hnanos⟩ := dt.parts_time
  have hlocal := dt.parts_local
  obtain ⟨zone, hplace, hoffset⟩ := @place_offset (dt.secs + dt.offset) _ hlimit
  have hsecond' : (if dt.parts.second = 60 then 59 else dt.parts.second) = dt.parts.second :=
    if_neg (by omega)
  have hinstant : dt.secs + dt.offset - dt.offset = dt.secs := by omega
  unfold assemble
  dsimp only
  rw [if_neg (by omega), if_neg (by omega), if_neg (by omega), if_neg (by omega), hsecond',
    if_neg (by omega), dif_pos hnanos, hlocal, hplace]
  simp only [bind, Except.bind, hinstant]
  rw [DateTime.fromRawChecked, dif_pos dt.supported]
  exact ⟨_, rfl, rfl, rfl, hoffset dt.secs⟩

theorem parse_isoText {dt : DateTime} (hzone : dt.zone.IsOffset)
    (hyear : 0 ≤ dt.parts.year ∧ dt.parts.year ≤ 9999) (hminutes : dt.offset.natAbs % 60 = 0)
    (source : ZoneSource) (zSuffix : Bool) :
    parse source (stampText dt.parts.year.toNat dt.parts.month dt.parts.day dt.parts.hour
        dt.parts.minute dt.parts.second ++
        (writeFraction dt.parts.nanos ++ offsetText dt.offset zSuffix)) none =
      if dt.offset.natAbs < 86400 then
        assemble (dt.parts.year, dt.parts.month, dt.parts.day)
          (dt.parts.hour, dt.parts.minute, dt.parts.second, dt.parts.nanos) none (some dt.offset)
          none
      else parseError "offset is out of range" := by
  obtain ⟨hmonth, hday⟩ := month_day_lt dt
  obtain ⟨hhour, hminute, hsecond, hnanos⟩ := dt.parts_time
  have hlimit := offset_limit hzone
  have hend := endsNumber_of_offsetShape (offsetShape_offsetText dt.offset zSuffix)
  obtain ⟨front, hdate⟩ := parseYearMonthDay_between
    (show dt.parts.year.toNat < 10000 by omega) hmonth hday
    (84 :: (fixedDigits 2 dt.parts.hour ++ (58 :: (fixedDigits 2 dt.parts.minute ++
      (58 :: (fixedDigits 2 dt.parts.second ++
        (writeFraction dt.parts.nanos ++ offsetText dt.offset zSuffix)))))))
  obtain ⟨front', hclock⟩ := parseClock_between (show dt.parts.hour < 100 by omega)
    (show dt.parts.minute < 100 by omega) (show dt.parts.second < 100 by omega) hnanos hend
    (front ++ [84])
  obtain ⟨front'', hoffset⟩ := parseOffset_text hlimit hminutes zSuffix front'
  have hstart : (⟨stampText dt.parts.year.toNat dt.parts.month dt.parts.day dt.parts.hour
        dt.parts.minute dt.parts.second ++
        (writeFraction dt.parts.nanos ++ offsetText dt.offset zSuffix), 0⟩ : Parser) =
      between [] (fixedDigits 4 dt.parts.year.toNat ++ (45 :: (fixedDigits 2 dt.parts.month ++
        (45 :: (fixedDigits 2 dt.parts.day ++ (84 :: (fixedDigits 2 dt.parts.hour ++
          (58 :: (fixedDigits 2 dt.parts.minute ++ (58 :: (fixedDigits 2 dt.parts.second ++
            (writeFraction dt.parts.nanos ++ offsetText dt.offset zSuffix)))))))))))) := by
    simp [between, stampText]
  have hyearInt : (dt.parts.year.toNat : Int) = dt.parts.year := by omega
  have hnotDone (tail : Bytes) : (between front (84 :: tail)).done = false := by
    simp [done, between]
  have hzoneText (front : Bytes) : parseZoneAnnotation source (between front []) =
      .ok (none, between front []) := by
    rw [ parseZoneAnnotation, if_pos (by simp)]
  unfold parse
  rw [hstart, hdate, hyearInt]
  simp only [bind, Except.bind, hnotDone, Bool.false_eq_true, if_false, peek_between_cons,
    true_or, if_true, bump_between_cons, hclock, hoffset]
  by_cases hday : dt.offset.natAbs < 86400
  · simp only [if_pos hday, hzoneText, done_between_nil, Bool.not_true, Bool.false_eq_true,
      if_false]
  · simp only [if_neg hday]
    rfl

theorem not_mem_isoText {year month day hour minute second nanos : Nat}
    (hnanos : nanos < 1000000000) (offset : Int) (zSuffix : Bool) :
    (91 : UInt8) ∉ stampText year month day hour minute second ++
      (writeFraction nanos ++ offsetText offset zSuffix) := by
  have hdigits (width n : Nat) : (91 : UInt8) ∉ fixedDigits width n := by
    intro h
    have := isAsciiDigit_of_mem h
    revert this
    decide
  have hfraction : (91 : UInt8) ∉ writeFraction nanos := by
    rcases writeFraction_cases hnanos with ⟨-, htext⟩ | ⟨width, n, -, -, -, -, htext⟩ <;>
      simp [htext, hdigits]
  have hoffset : (91 : UInt8) ∉ offsetText offset zSuffix := by
    unfold offsetText
    split
    · decide
    · split <;> simp [hdigits]
  simp [stampText, hdigits, hfraction, hoffset]

def Format.IsRfc3339 (format : Format) : Prop :=
  format = .rfc3339 ∨ format = .rfc9557 ∨ format = .iso8601

theorem parseWithFormat_isoText {format : Format} (hformat : format.IsRfc3339)
    (source : ZoneSource) {year month day hour minute second nanos : Nat}
    (hnanos : nanos < 1000000000) (offset : Int) (zSuffix : Bool) :
    parseWithFormat source (stampText year month day hour minute second ++
        (writeFraction nanos ++ offsetText offset zSuffix)) format =
      parse source (stampText year month day hour minute second ++
        (writeFraction nanos ++ offsetText offset zSuffix)) none := by
  have hshape := @rfc3339Shape_text year month day hour minute second nanos hnanos _
    (offsetShape_offsetText offset zSuffix)
  have hbracket := @not_mem_isoText year month day hour minute second nanos hnanos offset
    zSuffix
  rcases hformat with rfl | rfl | rfl
  · simp [parseWithFormat, parseRfc3339Strict, hshape]
  · simp [parseWithFormat, parseRfc9557Strict, beforeAnnotation, hbracket, hshape, bind,
      Except.bind]
  · simp [parseWithFormat, parseRfc3339Strict, hshape]

theorem display_eq {dt : DateTime} {format : Format} (h : FitsDigits dt format) :
    display dt format = writeFormat dt format := by
  obtain ⟨hroom, hfull⟩ := @formatInto_of_emits _ _
    (List.replicate MAX_FORMATTED_LENGTH 0) (emits_format dt h)
  unfold display
  rcases Nat.lt_or_ge (List.replicate MAX_FORMATTED_LENGTH (0 : UInt8)).length
    (writeFormat dt format).length with hlt | hge
  · split
    · next hsome =>
      have hnone := hfull hlt
      rw [hsome] at hnone
      cases hnone
    · rfl
  · rw [hroom hge]
    exact Buf.take_put

theorem tryFormat_text {dt : DateTime} {format : Format} {text : Bytes}
    (hzone : dt.zone.IsOffset) (hformat : format.IsRfc3339)
    (htext : dt.tryFormat format = .ok text) :
    (0 ≤ dt.parts.year ∧ dt.parts.year ≤ 9999) ∧ dt.offset.natAbs % 60 = 0 ∧
      ∃ zSuffix, text = stampText dt.parts.year.toNat dt.parts.month dt.parts.day dt.parts.hour
        dt.parts.minute dt.parts.second ++
        (writeFraction dt.parts.nanos ++ offsetText dt.offset zSuffix) := by
  unfold DateTime.tryFormat at htext
  split at htext
  · cases htext
  next hyear =>
  split at htext
  · cases htext
  next hoffset =>
  obtain rfl := Except.ok.inj htext
  have hyear' : 0 ≤ dt.parts.year ∧ dt.parts.year ≤ 9999 := by
    by_contra hcontra
    exact hyear ⟨by rcases hformat with rfl | rfl | rfl <;> decide, hcontra⟩
  have hminutes : dt.offset.natAbs % 60 = 0 := by
    by_contra hcontra
    refine hoffset ⟨?_, ?_⟩
    · rcases hformat with rfl | rfl | rfl <;> simp
    · rw [Ne, ← Int.dvd_iff_tmod_eq_zero]
      omega
  have hlimit := offset_limit hzone
  have hfits : FitsDigits dt format := by
    rcases hformat with rfl | rfl | rfl <;>
      exact ⟨⟨by unfold DateTime.year; omega, hyear'.2⟩, by omega⟩
  refine ⟨hyear', hminutes, ?_⟩
  rw [display_eq hfits]
  rcases hformat with rfl | rfl | rfl
  · exact ⟨true, writeIso_eq hzone hyear' hminutes true false⟩
  · exact ⟨true, writeIso_eq hzone hyear' hminutes true true⟩
  · exact ⟨false, writeIso_eq hzone hyear' hminutes false false⟩

/-- The parser reads back the same instant with the same offset. -/
def ReadsBack (source : ZoneSource) (dt : DateTime) (format : Format) (text : Bytes) : Prop :=
  ∃ dt', parseWithFormat source text format = .ok dt' ∧
    dt'.secs = dt.secs ∧ dt'.nanos = dt.nanos ∧ dt'.offset = dt.offset

/-- The text of an offset zone is read back exactly when the offset is less than a day. -/
theorem readsBack_iff (source : ZoneSource) {dt : DateTime} {format : Format} {text : Bytes}
    (hzone : dt.zone.IsOffset) (hformat : format.IsRfc3339)
    (htext : dt.tryFormat format = .ok text) :
    ReadsBack source dt format text ↔ dt.offset.natAbs < 86400 := by
  obtain ⟨hyear, hminutes, zSuffix, rfl⟩ := tryFormat_text hzone hformat htext
  have hnanos := dt.parts_time.2.2.2
  unfold ReadsBack
  rw [parseWithFormat_isoText hformat source hnanos, parse_isoText hzone hyear hminutes]
  by_cases hday : dt.offset.natAbs < 86400
  · simp only [hday, iff_true]
    exact assemble_parts dt (offset_limit hzone)
  · simp only [hday, iff_false]
    rintro ⟨dt', herror, -⟩
    cases herror

def epochAt (offset : FixedOffset) : DateTime :=
  ⟨0, 0, offset.seconds, .fixedZone offset, zero_supported, rfl⟩

def noZones : ZoneSource := ⟨fun _ => none, .ok .utc⟩

theorem readsBack_hour :
    (epochAt ⟨3600, by decide⟩).tryFormat .rfc3339 = .ok (utf8 "1970-01-01T01:00:00+01:00") ∧
      ReadsBack noZones (epochAt ⟨3600, by decide⟩) .rfc3339
        (utf8 "1970-01-01T01:00:00+01:00") := by
  have hdisplay : display (epochAt ⟨3600, by decide⟩) .rfc3339 =
      utf8 "1970-01-01T01:00:00+01:00" := by decide +kernel
  have htext : (epochAt ⟨3600, by decide⟩).tryFormat .rfc3339 =
      .ok (utf8 "1970-01-01T01:00:00+01:00") := congrArg Except.ok hdisplay
  have hiff : ReadsBack noZones (epochAt ⟨3600, by decide⟩) .rfc3339 _ ↔
      (epochAt ⟨3600, by decide⟩).offset.natAbs < 86400 :=
    readsBack_iff noZones trivial (.inl rfl) htext
  exact ⟨htext, hiff.mpr (by decide)⟩

/-- The formatter accepts an offset of 24 hours, which the parser rejects. -/
theorem not_readsBack_day :
    (epochAt ⟨86400, by decide⟩).tryFormat .rfc3339 =
        .ok (utf8 "1970-01-02T00:00:00+24:00") ∧
      ∀ source, ¬ReadsBack source (epochAt ⟨86400, by decide⟩) .rfc3339
        (utf8 "1970-01-02T00:00:00+24:00") := by
  have hdisplay : display (epochAt ⟨86400, by decide⟩) .rfc3339 =
      utf8 "1970-01-02T00:00:00+24:00" := by decide +kernel
  refine ⟨congrArg Except.ok hdisplay, ?_⟩
  rintro source ⟨dt', hparse, -⟩
  have herror : parseWithFormat source (utf8 "1970-01-02T00:00:00+24:00") .rfc3339 =
      .error ⟨.parse, "offset is out of range"⟩ := rfl
  rw [herror] at hparse
  cases hparse

end Stdx.Time
