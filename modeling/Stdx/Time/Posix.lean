import Stdx.Foundation.Digits
import Stdx.Foundation.Slices
import Stdx.Time.Civil

/-!
# POSIX `TZ` strings

The parser and the evaluator of `time/posix.rs`.  A string is its octets; where the
source cuts a string it cuts it at an ASCII character.
-/

namespace Stdx.Time

open Stdx.Foundation

/-- The local time in effect at an instant. -/
structure ZoneInfo where
  offset : Int
  isDst : Bool
  abbreviation : Bytes
deriving DecidableEq

inductive Rule where
  | julianNoLeap (n : Nat)
  | julian (n : Nat)
  | monthWeekDay (month week day : Nat)
deriving DecidableEq

structure DstRule where
  name : Bytes
  east : Int
  start : Rule × Int
  finish : Rule × Int
deriving DecidableEq

def daylightRuleFromPackedDay (day : Nat) : Rule :=
  match day >>> 14 with
  | 1 => .julian (day &&& 0x3FFF)
  | 2 => .monthWeekDay ((day >>> 10) &&& 0xF) ((day >>> 7) &&& 0x7) ((day >>> 4) &&& 0x7)
  | _ => .julianNoLeap (day &&& 0x3FFF)

/-! ## Evaluation -/

def DAYS_BEFORE_MONTH : List Nat := [0, 31, 59, 90, 120, 151, 181, 212, 243, 273, 304, 334]

def DAYS_PER_MONTH (leap : Bool) : List Nat :=
  if leap then [31, 29, 31, 30, 31, 30, 31, 31, 30, 31, 30, 31]
  else [31, 28, 31, 30, 31, 30, 31, 31, 30, 31, 30, 31]

def ruleDayOfYear (rule : Rule) (year : Int) (jan1 : Int) : Int :=
  match rule with
  | .julianNoLeap n => (n : Int) - 1 + if isLeap year && n ≥ 60 then 1 else 0
  | .julian n => n
  | .monthWeekDay month week day =>
    let month0 := month - 1
    let leap := isLeap year
    let firstDoy : Int := DAYS_BEFORE_MONTH.getD month0 0 + if leap && month > 2 then 1 else 0
    let firstWeekday := (jan1 + firstDoy + 3) % 7
    let target : Int := (day + 6) % 7
    let dom := 1 + (target - firstWeekday) % 7 + ((week : Int) - 1) * 7
    let last : Int := (DAYS_PER_MONTH leap).getD month0 0
    let dom := if week = 5 ∧ dom > last then dom - 7 else dom
    firstDoy + dom - 1

def transitionInstantFast (year jan1 : Int) (rule : Rule) (time offsetBefore : Int) : Int :=
  (jan1 + ruleDayOfYear rule year jan1) * SECS_PER_DAY + time - offsetBefore

def evaluateDaylight (rule : DstRule) (standardEast : Int) (standardName : Bytes)
    (seconds : Int) : ZoneInfo :=
  let approxLocal := seconds + standardEast
  let days := approxLocal / SECS_PER_DAY
  let year := (civilFromDays days).1
  let jan1 := daysFromCivil year 1 1
  let start := transitionInstantFast year jan1 rule.start.1 rule.start.2 standardEast
  let finish := transitionInstantFast year jan1 rule.finish.1 rule.finish.2 rule.east
  let inDst :=
    if start ≤ finish then seconds ≥ start ∧ seconds < finish
    else seconds ≥ start ∨ seconds < finish
  if inDst then ⟨rule.east, true, rule.name⟩ else ⟨standardEast, false, standardName⟩

/-! ## Parsing -/

structure PosixTz where
  stdName : Bytes
  stdEast : Int
  dst : Option DstRule
deriving DecidableEq

def isAsciiAlphabetic (octet : UInt8) : Bool :=
  (65 ≤ octet && octet ≤ 90) || (97 ≤ octet && octet ≤ 122)

/-- `str::parse::<i32>` of a string of digits. -/
def parseI32 (digits : Bytes) : Option Int :=
  if digitsValue digits ≤ 2147483647 then some (digitsValue digits) else none

def stripPrefix (octet : UInt8) : Bytes → Option Bytes
  | [] => none
  | head :: rest => if head = octet then some rest else none

def parseName (s : Bytes) : Option (Bytes × Bytes) :=
  match s with
  | [] => none
  | 60 :: _ =>
    let stop := s.findIdx (· == 62)
    if stop < s.length then some (slice s 1 stop, s.drop (stop + 1)) else none
  | _ =>
    let stop := s.findIdx fun octet => !isAsciiAlphabetic octet
    if stop = 0 then none else some (s.take stop, s.drop stop)

def parseSexagesimal (s : Bytes) : Option (Int × Bytes) := do
  let (digits, rest) := s.span isAsciiDigit
  if digits.length ≠ 2 then none
  else
    let value ← parseI32 digits
    if value > 59 then none else some (value, rest)

def parseHms (s : Bytes) : Option (Int × Bytes) := do
  let (sign, s) : Int × Bytes :=
    match s with
    | 43 :: rest => (1, rest)
    | 45 :: rest => (-1, rest)
    | _ => (1, s)
  let (digits, s) := s.span isAsciiDigit
  if digits = [] then none
  else
    let hours ← parseI32 digits
    if hours > 167 then none
    else
      match stripPrefix 58 s with
      | none => some (sign * (hours * 3600), s)
      | some s =>
        let (minutes, s) ← parseSexagesimal s
        match stripPrefix 58 s with
        | none => some (sign * (hours * 3600 + minutes * 60), s)
        | some s =>
          let (seconds, s) ← parseSexagesimal s
          some (sign * (hours * 3600 + minutes * 60 + seconds), s)

def parseDigits (s : Bytes) : Option (Int × Bytes) := do
  let (digits, rest) := s.span isAsciiDigit
  if digits = [] then none else some (← parseI32 digits, rest)

def parseRuleDay (s : Bytes) : Option (Rule × Bytes) :=
  match s with
  | [] => none
  | 74 :: s => do
      let (n, rest) ← parseDigits s
      if ¬(1 ≤ n ∧ n ≤ 365) then none else some (.julianNoLeap n.toNat, rest)
  | 77 :: s => do
      let (month, rest) ← parseDigits s
      let rest ← stripPrefix 46 rest
      let (week, rest) ← parseDigits rest
      let rest ← stripPrefix 46 rest
      let (day, rest) ← parseDigits rest
      if ¬(1 ≤ month ∧ month ≤ 12) ∨ ¬(1 ≤ week ∧ week ≤ 5) ∨ day > 6 then none
      else some (.monthWeekDay month.toNat week.toNat day.toNat, rest)
  | s => do
      let (n, rest) ← parseDigits s
      if n > 365 then none else some (.julian n.toNat, rest)

def parseRule (s : Bytes) : Option (Rule × Int × Bytes) := do
  let (rule, rest) ← parseRuleDay s
  match stripPrefix 47 rest with
  | some rest => do
      let (time, rest) ← parseHms rest
      some (rule, time, rest)
  | none => some (rule, 2 * 3600, rest)

def parseRules (rest : Bytes) : Option ((Rule × Int) × (Rule × Int)) :=
  match stripPrefix 44 rest with
  | some rest => do
      let (startRule, startTime, rest) ← parseRule rest
      let rest ← stripPrefix 44 rest
      let (endRule, endTime, rest) ← parseRule rest
      if rest ≠ [] then none else some ((startRule, startTime), (endRule, endTime))
  | none =>
    if rest = [] then some ((.monthWeekDay 3 2 0, 2 * 3600), (.monthWeekDay 11 1 0, 2 * 3600))
    else none

def startsOffset : Bytes → Bool
  | [] => false
  | octet :: _ => isAsciiDigit octet || octet == 43 || octet == 45

def startsName : Bytes → Bool
  | [] => false
  | octet :: _ => isAsciiAlphabetic octet || octet == 60

def parseDstOffset (stdEast : Int) (rest : Bytes) : Option (Int × Bytes) :=
  if startsOffset rest then do
    let (dstWest, rest) ← parseHms rest
    some (-dstWest, rest)
  else some (stdEast + 3600, rest)

def PosixTz.parse (s : Bytes) : Option PosixTz := do
  let (stdName, rest) ← parseName s
  let (stdWest, rest) ← parseHms rest
  let stdEast := -stdWest
  if startsName rest then do
    let (dstName, rest) ← parseName rest
    let (dstEast, rest) ← parseDstOffset stdEast rest
    let (start, finish) ← parseRules rest
    some ⟨stdName, stdEast, some ⟨dstName, dstEast, start, finish⟩⟩
  else some ⟨stdName, stdEast, none⟩

def PosixTz.lookup (tz : PosixTz) (secs : Int) : ZoneInfo :=
  match tz.dst with
  | none => ⟨tz.stdEast, false, tz.stdName⟩
  | some dst => evaluateDaylight dst tz.stdEast tz.stdName secs

end Stdx.Time
