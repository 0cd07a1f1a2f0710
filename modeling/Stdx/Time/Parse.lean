import Stdx.Time.Format

/-!
# Parsing dates

The parsers of `time/parse.rs`.  The input is the octets of a `str`; a `Parser` looks at
them from a position on.
-/

namespace Stdx.Time

open Stdx.Foundation

def parseError {α : Type} (message : String) : Except Error α := .error ⟨.parse, message⟩

def invalidError {α : Type} (message : String) : Except Error α := .error ⟨.invalid, message⟩

structure Parser where
  bytes : Bytes
  pos : Nat

namespace Parser

def peek (p : Parser) : Option UInt8 := p.bytes[p.pos]?

def bump (p : Parser) : Parser := { p with pos := p.pos + 1 }

def eat (p : Parser) (octet : UInt8) : Bool × Parser :=
  if p.peek = some octet then (true, p.bump) else (false, p)

def expect (p : Parser) (octet : UInt8) : Except Error Parser :=
  if p.peek = some octet then .ok p.bump else parseError "unexpected character"

def peeksDigit (p : Parser) : Bool :=
  match p.peek with
  | some octet => isAsciiDigit octet
  | none => false

def fixedFrom : Nat → Nat → Parser → Except Error (Nat × Parser)
  | 0, value, p => .ok (value, p)
  | count + 1, value, p =>
    match p.peek with
    | some octet =>
      if isAsciiDigit octet then fixedFrom count (value * 10 + (octet.toNat - 48)) p.bump
      else parseError "expected a digit"
    | none => parseError "expected a digit"

def fixed (p : Parser) (count : Nat) : Except Error (Nat × Parser) := fixedFrom count 0 p

/-- `while peek().is_some_and(is_ascii_digit) { bump() }` -/
def skipDigits : Nat → Parser → Parser
  | 0, p => p
  | fuel + 1, p => if p.peeksDigit then skipDigits fuel p.bump else p

def number (p : Parser) (start stop : Nat) : Except Error Int :=
  let digits := slice p.bytes start stop
  if ¬digits.all isAsciiDigit then parseError "expected a digit"
  else if digitsValue digits > I64_MAX then parseError "number is too large"
  else .ok (digitsValue digits)

def done (p : Parser) : Bool := p.pos = p.bytes.length

end Parser

/-! ## The lenient grammar -/

def parseYearMonthDay (p : Parser) : Except Error ((Int × Nat × Nat) × Parser) := do
  let (negativeYear, p) := p.eat 45
  let (_, p) := p.eat 43
  let yearStart := p.pos
  let p := Parser.skipDigits p.bytes.length p
  if p.pos - yearStart < 4 then parseError "expected a four digit year"
  else
    let magnitude ← p.number yearStart p.pos
    let year := if negativeYear then -magnitude else magnitude
    if year < MIN_YEAR ∨ year > MAX_YEAR then
      .error ⟨.outOfRange, "year is outside the supported range"⟩
    else
      let p ← p.expect 45
      let (month, p) ← p.fixed 2
      let p ← p.expect 45
      let (day, p) ← p.fixed 2
      .ok ((year, month, day), p)

def fractionFrom : Nat → Nat → Nat → Nat → Parser → Nat × Parser
  | 0, nanos, _, _, p => (nanos, p)
  | fuel + 1, nanos, significant, scale, p =>
    match p.peek with
    | some octet =>
      if isAsciiDigit octet then
        if significant < 9 then
          fractionFrom fuel (nanos + (octet.toNat - 48) * scale) (significant + 1)
            (scale / 10) p.bump
        else fractionFrom fuel nanos significant scale p.bump
      else (nanos, p)
    | none => (nanos, p)

def parseFraction (p : Parser) : Except Error (Nat × Parser) :=
  if p.peek = some 46 ∨ p.peek = some 44 then
    let p := p.bump
    let (nanos, rest) := fractionFrom p.bytes.length 0 0 100000000 p
    if rest.pos = p.pos then parseError "expected fractional digits" else .ok (nanos, rest)
  else .ok (0, p)

def parseSecond (p : Parser) : Except Error (Nat × Parser) :=
  match p.eat 58 with
  | (true, p) => p.fixed 2
  | (false, p) => .ok (0, p)

def parseClock (p : Parser) : Except Error ((Nat × Nat × Nat × Nat) × Parser) := do
  let (hour, p) ← p.fixed 2
  let p ← p.expect 58
  let (minute, p) ← p.fixed 2
  let (second, p) ← parseSecond p
  let (nanos, p) ← parseFraction p
  .ok ((hour, minute, second, nanos), p)

def parseOffsetRest (p : Parser) : Except Error ((Nat × Nat) × Parser) :=
  match p.eat 58 with
  | (true, p) => do
      let (minutes, p) ← p.fixed 2
      match p.eat 58 with
      | (true, p) => do
          let (seconds, p) ← p.fixed 2
          .ok ((minutes, seconds), p)
      | (false, p) => .ok ((minutes, 0), p)
  | (false, p) =>
    if p.peeksDigit then do
      let (minutes, p) ← p.fixed 2
      if p.peeksDigit then do
        let (seconds, p) ← p.fixed 2
        .ok ((minutes, seconds), p)
      else .ok ((minutes, 0), p)
    else .ok ((0, 0), p)

def parseOffset (p : Parser) : Except Error (Option Int × Parser) :=
  if p.peek = some 90 ∨ p.peek = some 122 then .ok (some 0, p.bump)
  else if p.peek = some 43 ∨ p.peek = some 45 then do
    let negative := p.peek = some 45
    let (hours, p) ← p.bump.fixed 2
    let ((minutes, seconds), p) ← parseOffsetRest p
    let magnitude : Int := hours * 3600 + minutes * 60 + seconds
    if hours > 23 ∨ minutes > 59 ∨ seconds > 59 then parseError "offset is out of range"
    else
      let offset := if negative then -magnitude else magnitude
      let _ ← TimeZone.fixed offset
      .ok (some offset, p)
  else .ok (none, p)

/-- `while peek().is_some_and(|b| b != b']') { bump() }` -/
def skipToBracket : Nat → Parser → Parser
  | 0, p => p
  | fuel + 1, p =>
    match p.peek with
    | some octet => if octet ≠ 93 then skipToBracket fuel p.bump else p
    | none => p

def parseZoneAnnotation (source : ZoneSource) (p : Parser) :
    Except Error (Option TimeZone × Parser) :=
  if p.peek ≠ some 91 then .ok (none, p)
  else
    let p := p.bump
    let start := p.pos
    match (skipToBracket p.bytes.length p).eat 93 with
    | (false, _) => parseError "unterminated time zone annotation"
    | (true, p) =>
      let name := slice p.bytes start (p.pos - 1)
      match fromUtf8 name with
      | none => parseError "invalid time zone name"
      | some _ => do
          let zone ← TimeZone.ofName source name
          .ok (some zone, p)

def place (localSecs : Int) (zone : Option TimeZone) (offset : Option Int)
    (defaultZone : Option TimeZone) : Except Error (TimeZone × Int) :=
  match zone, offset with
  | some zone, some offset =>
    let instant := localSecs - offset
    if zone.offsetAt instant ≠ offset then
      .error ⟨.offsetConflict, "offset does not match the time zone"⟩
    else .ok (zone, instant)
  | some zone, none => .ok (zone, zone.resolveCompatible localSecs)
  | none, some offset =>
    if offset = 0 then .ok (.utc, localSecs - offset)
    else do
      let zone ← TimeZone.fixed offset
      .ok (zone, localSecs - offset)
  | none, none =>
    let zone := defaultZone.getD .utc
    .ok (zone, zone.resolveCompatible localSecs)

def assemble (date : Int × Nat × Nat) (clock : Nat × Nat × Nat × Nat) (zone : Option TimeZone)
    (offset : Option Int) (defaultZone : Option TimeZone) : Except Error DateTime :=
  let (year, month, day) := date
  let (hour, minute, second, nanos) := clock
  if ¬(1 ≤ month ∧ month ≤ 12) then invalidError "month is not in 1..=12"
  else if day < 1 ∨ day > daysInMonth year month then
    invalidError "day is not valid for the given month"
  else if hour > 23 then invalidError "hour is not in 0..=23"
  else if minute > 59 then invalidError "minute is not in 0..=59"
  else
    let second := if second = 60 then 59 else second
    if second > 59 then invalidError "second is not in 0..=60"
    else if h : nanos < NANOS_PER_SEC then do
      let localSecs := daysFromCivil year month day * SECS_PER_DAY + hour * 3600 + minute * 60 +
        second
      let (zone, instant) ← place localSecs zone offset defaultZone
      DateTime.fromRawChecked instant ⟨nanos, h⟩ zone
    else invalidError "fractional seconds are out of range"

def parse (source : ZoneSource) (input : Bytes) (defaultZone : Option TimeZone) :
    Except Error DateTime := do
  let (date, p) ← parseYearMonthDay ⟨input, 0⟩
  if p.done then assemble date (0, 0, 0, 0) none none defaultZone
  else if p.peek = some 84 ∨ p.peek = some 116 ∨ p.peek = some 32 then do
    let (clock, p) ← parseClock p.bump
    let (offset, p) ← parseOffset p
    let (zone, p) ← parseZoneAnnotation source p
    if !p.done then parseError "trailing characters"
    else assemble date clock zone offset defaultZone
  else parseError "expected a date/time separator"

/-! ## The strict grammars -/

def digitsAt (bytes : Bytes) (start stop : Nat) : Bool :=
  (slice bytes start stop).length == stop - start && (slice bytes start stop).all isAsciiDigit

def skipFraction (bytes : Bytes) : Option Nat :=
  if bytes[19]? = some 46 then
    let rest := (Parser.skipDigits bytes.length ⟨bytes, 20⟩).pos
    if rest = 20 then none else some rest
  else some 19

def rfc3339Shape (bytes : Bytes) : Bool :=
  if bytes.length < 20 ∨ ¬digitsAt bytes 0 4 ∨ bytes[4]? ≠ some 45 ∨ ¬digitsAt bytes 5 7 ∨
      bytes[7]? ≠ some 45 ∨ ¬digitsAt bytes 8 10 ∨
      ¬(bytes[10]? = some 84 ∨ bytes[10]? = some 116) ∨ ¬digitsAt bytes 11 13 ∨
      bytes[13]? ≠ some 58 ∨ ¬digitsAt bytes 14 16 ∨ bytes[16]? ≠ some 58 ∨
      ¬digitsAt bytes 17 19 then false
  else
    match skipFraction bytes with
    | none => false
    | some index =>
      if bytes[index]? = some 90 ∨ bytes[index]? = some 122 then index + 1 = bytes.length
      else if bytes[index]? = some 43 ∨ bytes[index]? = some 45 then
        index + 6 = bytes.length && digitsAt bytes (index + 1) (index + 3) &&
          bytes[index + 3]? = some 58 && digitsAt bytes (index + 4) (index + 6)
      else false

def parseRfc3339Strict (source : ZoneSource) (input : Bytes) : Except Error DateTime :=
  if !rfc3339Shape input then parseError "input is not an RFC 3339 date-time"
  else parse source input none

/-- The date-time before the last `[`, when the input ends with `]`. -/
def beforeAnnotation (input : Bytes) : Except Error Bytes :=
  if input.contains 91 then
    if input.getLast? = some 93 then
      .ok (input.take (input.length - 1 - input.reverse.findIdx (· == 91)))
    else parseError "malformed RFC 9557 time zone annotation"
  else .ok input

def parseRfc9557Strict (source : ZoneSource) (input : Bytes) : Except Error DateTime := do
  let datetime ← beforeAnnotation input
  if !rfc3339Shape datetime then parseError "input is not an RFC 9557 date-time"
  else parse source input none

def parseDateOnly (input : Bytes) : Except Error DateTime := do
  let (date, p) ← parseYearMonthDay ⟨input, 0⟩
  if !p.done then parseError "trailing characters"
  else assemble date (0, 0, 0, 0) none none none

def parseTimeOnly (input : Bytes) : Except Error DateTime := do
  let (clock, p) ← parseClock ⟨input, 0⟩
  if !p.done then parseError "trailing characters"
  else assemble (1970, 1, 1) clock none none none

/-! ## Mail and HTTP dates -/

def oneDigit (octet : UInt8) : Except Error Nat :=
  if isAsciiDigit octet then .ok (octet.toNat - 48) else parseError "expected a digit"

def twoDigits (bytes : Bytes) : Except Error Nat :=
  match bytes with
  | [first, second] => do .ok ((← oneDigit first) * 10 + (← oneDigit second))
  | _ => parseError "expected two digits"

def fourDigits (bytes : Bytes) : Except Error Int :=
  if bytes.length ≠ 4 then parseError "expected four digits"
  else do
    let digits ← bytes.mapM oneDigit
    .ok (digits.foldl (fun value digit => value * 10 + digit) 0)

def twoDigitYear (year : Nat) : Int := if year < 50 then 2000 + year else 1900 + year

def parseDecimal (token : Bytes) (min max : Nat) : Except Error Nat :=
  if token.length < min ∨ token.length > max ∨ ¬token.all isAsciiDigit then
    parseError "expected a decimal number"
  else .ok (digitsValue token)

def monthFromAbbrev (name : Bytes) : Except Error Nat :=
  match (List.range' 1 12).find? fun month => monthShort month == name with
  | some month => .ok month
  | none => parseError "invalid month name"

def WEEKDAYS : List String :=
  ["Monday", "Tuesday", "Wednesday", "Thursday", "Friday", "Saturday", "Sunday"]

def validateWeekdayShort (name : Bytes) : Except Error Unit :=
  if WEEKDAYS.any fun day => (utf8 day).take 3 == name then .ok ()
  else parseError "invalid weekday name"

def validateWeekdayLong (name : Bytes) : Except Error Unit :=
  if WEEKDAYS.any fun day => (utf8 day).take 3 == name || utf8 day == name then .ok ()
  else parseError "invalid weekday name"

def stripWeekdayLong (s : Bytes) : Except Error Bytes :=
  match WEEKDAYS.find? fun day => (utf8 day ++ utf8 ", ").isPrefixOf s with
  | some day => .ok (s.drop (utf8 day ++ utf8 ", ").length)
  | none => parseError "invalid weekday name"

def isAsciiWhitespace (octet : UInt8) : Bool :=
  octet == 32 || octet == 9 || octet == 10 || octet == 12 || octet == 13

def tokensOf (input : Bytes) : List Bytes :=
  (input.splitOnP isAsciiWhitespace).filter (· ≠ [])

def nextToken (tokens : List Bytes) (message : String) : Except Error (Bytes × List Bytes) :=
  match tokens with
  | [] => parseError message
  | token :: rest => .ok (token, rest)

def parseHmsToken (token : Bytes) : Except Error (Nat × Nat × Nat) :=
  match token.splitOnP (· == 58) with
  | [hour, minute] => do .ok (← parseDecimal hour 1 2, ← parseDecimal minute 2 2, 0)
  | [hour, minute, second] => do
      .ok (← parseDecimal hour 1 2, ← parseDecimal minute 2 2, ← parseDecimal second 2 2)
  | hour :: minute :: second :: _ => do
      let _ ← parseDecimal hour 1 2
      let _ ← parseDecimal minute 2 2
      let _ ← parseDecimal second 2 2
      parseError "invalid time"
  | [hour] => do
      let _ ← parseDecimal hour 1 2
      parseError "missing minute"
  | [] => parseError "missing hour"

def parseRfc2822Year (token : Bytes) : Except Error Int := do
  let value ← parseDecimal token 2 4
  if token.length = 2 then .ok (twoDigitYear value) else .ok value

def parseRfc2822Zone (token : Bytes) : Except Error Int :=
  if ["gmt", "ut", "utc", "z"].any fun name => TimeZone.eqIgnoreAsciiCase token (utf8 name) then
    .ok 0
  else
    match token with
    | [sign, a, b, c, d] =>
      if sign = 43 ∨ sign = 45 then do
        let hours ← twoDigits [a, b]
        let minutes ← twoDigits [c, d]
        if hours > 23 ∨ minutes > 59 then parseError "RFC 2822 time zone is out of range"
        else
          let magnitude : Int := hours * 3600 + minutes * 60
          .ok (if sign = 45 then -magnitude else magnitude)
      else parseError "invalid RFC 2822 time zone"
    | _ => parseError "invalid RFC 2822 time zone"

def dayToken (tokens : List Bytes) : Except Error (Bytes × List Bytes) := do
  let (first, rest) ← nextToken tokens "empty RFC 2822 date"
  if first.getLast? = some 44 then do
    validateWeekdayLong first.dropLast
    nextToken rest "missing day"
  else .ok (first, rest)

def parseRfc2822 (input : Bytes) : Except Error DateTime := do
  let (token, tokens) ← dayToken (tokensOf input)
  let day ← parseDecimal token 1 2
  let (token, tokens) ← nextToken tokens "missing month"
  let month ← monthFromAbbrev token
  let (token, tokens) ← nextToken tokens "missing year"
  let year ← parseRfc2822Year token
  let (token, tokens) ← nextToken tokens "missing time"
  let (hour, minute, second) ← parseHmsToken token
  let offset ← (match tokens with
    | [] => .ok 0
    | zone :: _ => parseRfc2822Zone zone)
  if tokens.length > 1 then parseError "trailing characters"
  else assemble (year, month, day) (hour, minute, second, 0) none (some offset) none

def hasAt (bytes : Bytes) (position : Nat) (text : String) : Bool :=
  slice bytes position (position + (utf8 text).length) == utf8 text

def parseImfFixdate (b : Bytes) : Except Error DateTime :=
  if b.length ≠ 29 ∨ ¬(hasAt b 3 ", " && hasAt b 7 " " && hasAt b 11 " " && hasAt b 16 " " &&
      hasAt b 19 ":" && hasAt b 22 ":" && hasAt b 25 " GMT") then
    parseError "invalid IMF-fixdate"
  else do
    validateWeekdayShort (slice b 0 3)
    let day ← twoDigits (slice b 5 7)
    let month ← monthFromAbbrev (slice b 8 11)
    let year ← fourDigits (slice b 12 16)
    let hour ← twoDigits (slice b 17 19)
    let minute ← twoDigits (slice b 20 22)
    let second ← twoDigits (slice b 23 25)
    assemble (year, month, day) (hour, minute, second, 0) none (some 0) none

def parseRfc850Date (s : Bytes) : Except Error DateTime := do
  let b ← stripWeekdayLong s
  if b.length ≠ 22 ∨ ¬(hasAt b 2 "-" && hasAt b 6 "-" && hasAt b 9 " " && hasAt b 12 ":" &&
      hasAt b 15 ":" && hasAt b 18 " GMT") then
    parseError "invalid RFC 850 date"
  else do
    let day ← twoDigits (slice b 0 2)
    let month ← monthFromAbbrev (slice b 3 6)
    let year ← twoDigits (slice b 7 9)
    let hour ← twoDigits (slice b 10 12)
    let minute ← twoDigits (slice b 13 15)
    let second ← twoDigits (slice b 16 18)
    assemble (twoDigitYear year, month, day) (hour, minute, second, 0) none (some 0) none

def asctimeDay (field : Bytes) : Except Error Nat :=
  match field with
  | [32, second] => oneDigit second
  | field => twoDigits field

def parseAsctime (b : Bytes) : Except Error DateTime :=
  if b.length ≠ 24 ∨ ¬(hasAt b 3 " " && hasAt b 7 " " && hasAt b 10 " " && hasAt b 13 ":" &&
      hasAt b 16 ":" && hasAt b 19 " ") then
    parseError "invalid asctime date"
  else do
    validateWeekdayShort (slice b 0 3)
    let month ← monthFromAbbrev (slice b 4 7)
    let day ← asctimeDay (slice b 8 10)
    let hour ← twoDigits (slice b 11 13)
    let minute ← twoDigits (slice b 14 16)
    let second ← twoDigits (slice b 17 19)
    let year ← fourDigits (slice b 20 24)
    assemble (year, month, day) (hour, minute, second, 0) none (some 0) none

def isWhitespace (c : Char) : Bool :=
  let n := c.toNat
  (9 ≤ n && n ≤ 13) || n == 32 || n == 0x85 || n == 0xA0 || n == 0x1680 ||
    (0x2000 ≤ n && n ≤ 0x200A) || n == 0x2028 || n == 0x2029 || n == 0x202F || n == 0x205F ||
    n == 0x3000

/-- `str::trim` -/
def trim (input : Bytes) : Bytes :=
  match fromUtf8 input with
  | none => input
  | some text =>
    let front := text.toList.dropWhile isWhitespace
    utf8 (String.ofList (front.reverse.dropWhile isWhitespace).reverse)

def parseHttp (input : Bytes) : Except Error DateTime :=
  let input := trim input
  if ¬input.all fun octet => octet < 128 then parseError "date is not ASCII"
  else
    match parseImfFixdate input, parseRfc850Date input, parseAsctime input with
    | .ok dt, _, _ => .ok dt
    | _, .ok dt, _ => .ok dt
    | _, _, .ok dt => .ok dt
    | _, _, _ =>
      parseError "input is not an IMF-fixdate (RFC 9110), RFC 850 or asctime date"

def parseWithFormat (source : ZoneSource) (input : Bytes) : Format → Except Error DateTime
  | .rfc3339 | .iso8601 => parseRfc3339Strict source input
  | .rfc9557 => parseRfc9557Strict source input
  | .dateOnly => parseDateOnly input
  | .timeOnly => parseTimeOnly input
  | .rfc2822 => parseRfc2822 input
  | .httpDate => parseHttp input

end Stdx.Time
