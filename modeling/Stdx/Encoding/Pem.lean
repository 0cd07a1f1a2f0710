import Stdx.Foundation.Utf8
import Stdx.Base64.Kernels

/-!
# PEM

The textual encoding of `crypto/src/encoding/pem.rs`.  The parser of the source keeps
offsets into its input and always looks at the suffix from an offset on; here it carries
that suffix.  Headers are the pairs that the source keeps as spans of one string.
-/

namespace Stdx.Encoding.Pem

open Stdx.Foundation

def BEGIN_MARKER : Bytes := [45, 45, 45, 45, 45, 66, 69, 71, 73, 78, 32]
def END_MARKER : Bytes := [45, 45, 45, 45, 45, 69, 78, 68, 32]
def MARKER_END : Bytes := [45, 45, 45, 45, 45]

structure Block where
  type : String
  headers : List (String × String)
  contents : Bytes
deriving DecidableEq

inductive PemError where
  | invalidEncoding (message : String)
  | base64 (error : Base64.DecodeError)
  | labelMismatch (expected actual : String)
deriving DecidableEq

/-! ## Encoding -/

/-- The `chunks` of `LINE_WIDTH`, which is 64, each followed by a line feed. -/
def wrapLines : Nat → Bytes → Bytes
  | 0, _ => []
  | count + 1, text => text.take 64 ++ 10 :: wrapLines count (text.drop 64)

def encodeHeader (header : String × String) : Bytes :=
  utf8 header.1 ++ [58, 32] ++ utf8 header.2 ++ [10]

/-- One round of the loop of `encode`; `none` is the panic of the base64 encoder. -/
def encodeBlock (unit : VectorUnit) (T : Target) (block : Block) : Option Bytes := do
  let b64 ← Base64.encode unit T block.contents .standard
  some (BEGIN_MARKER ++ utf8 block.type ++ MARKER_END ++ [10] ++
    block.headers.flatMap encodeHeader ++ (if block.headers = [] then [] else [10]) ++
    wrapLines ((b64.length + 63) / 64) b64 ++
    END_MARKER ++ utf8 block.type ++ MARKER_END ++ [10])

def encode (unit : VectorUnit) (T : Target) : List Block → Option Bytes
  | [] => some []
  | block :: rest => do some ((← encodeBlock unit T block) ++ (← encode unit T rest))

/-! ## Lines -/

def isBreak (octet : UInt8) : Bool := octet == 10 || octet == 13

/-- `memmem::find` -/
def memmem (pattern : Bytes) : Bytes → Option Nat
  | [] => if pattern = [] then some 0 else none
  | octet :: rest =>
    if pattern.isPrefixOf (octet :: rest) then some 0
    else (memmem pattern rest).map (· + 1)

def findPattern (data pattern : Bytes) : Option Nat :=
  if pattern = [] ∨ data.length < pattern.length then none else memmem pattern data

def findLineEnd (data : Bytes) : Option Nat :=
  if data = [] then none else some (data.findIdx isBreak)

def lineAdvance (data : Bytes) : Nat :=
  let i := data.findIdx isBreak
  if i < data.length then
    if data.getD i 0 = 10 then i + 1
    else if i + 1 < data.length ∧ data.getD (i + 1) 0 = 10 then i + 2
    else i + 1
  else data.length

def isAsciiWhitespace (octet : UInt8) : Bool :=
  octet == 32 || octet == 9 || octet == 10 || octet == 12 || octet == 13

/-! ## Headers -/

/-- Whether the text of a BEGIN or END line after its marker ends in exactly five dashes. -/
def endsInMarker (label : Bytes) : Bool :=
  decide (MARKER_END.length ≤ label.length) &&
    label.drop (label.length - MARKER_END.length) == MARKER_END &&
    (label.length == MARKER_END.length ||
      label.getD (label.length - MARKER_END.length - 1) 0 != 45)

def parseBegin (input : Bytes) : Except PemError (String × Bytes) :=
  match findPattern input BEGIN_MARKER with
  | none => .error (.invalidEncoding "no BEGIN line found")
  | some beginOffset =>
    let remaining := input.drop (beginOffset + BEGIN_MARKER.length)
    match findLineEnd remaining with
    | none => .error (.invalidEncoding "unexpected end of PEM data")
    | some lineEnd =>
      let labelBytes := remaining.take lineEnd
      if endsInMarker labelBytes then
        match fromUtf8 (labelBytes.take (labelBytes.length - MARKER_END.length)) with
        | none => .error (.invalidEncoding "non-UTF-8 label")
        | some type => .ok (type, remaining.drop (lineAdvance remaining))
      else .error (.invalidEncoding "malformed BEGIN line")

def isContinuation (line : Bytes) : Bool :=
  match line with
  | [] => false
  | octet :: _ => octet == 32 || octet == 9

def continuationLoop : Nat → Bytes → String → String × Bytes
  | 0, rest, fullValue => (fullValue, rest)
  | fuel + 1, rest, fullValue =>
    let contLine := rest.take (rest.findIdx isBreak)
    if isContinuation contLine then
      let contTrimmed := contLine.dropWhile isAsciiWhitespace
      let fullValue :=
        if contTrimmed = [] then fullValue
        else
          let fullValue := if fullValue = "" then fullValue else fullValue ++ " "
          match fromUtf8 contTrimmed with
          | some s => fullValue ++ s
          | none => fullValue
      continuationLoop fuel (rest.drop (lineAdvance rest)) fullValue
    else (fullValue, rest)

inductive Section where
  | closed (rest : Bytes)
  | body (rest : Bytes)
deriving DecidableEq

inductive HeaderLine where
  | closing
  | blank
  | header (key value : Bytes)
  | other
deriving DecidableEq

def classify (line : Bytes) : HeaderLine :=
  if END_MARKER.isPrefixOf line then .closing
  else if line.all isAsciiWhitespace then .blank
  else
    let colonPos := line.findIdx (· == 58)
    if colonPos < line.length then
      let value := line.drop (colonPos + 1)
      .header (line.take colonPos)
        (if value.head? = some 32 then value.drop 1 else value)
    else .other

def headerLoop : Nat → Bytes → List (String × String) →
    Except PemError (List (String × String) × Section)
  | 0, _, _ => .error (.invalidEncoding "unexpected end of PEM data")
  | fuel + 1, remaining, pairs =>
    if remaining = [] then .error (.invalidEncoding "unexpected end of PEM data")
    else
      let line := remaining.take (remaining.findIdx isBreak)
      let next := remaining.drop (lineAdvance remaining)
      match classify line with
      | .closing => .ok (pairs, .closed next)
      | .blank => .ok (pairs, .body next)
      | .other => .ok (pairs, .body remaining)
      | .header key value =>
        match fromUtf8 key with
        | none => .error (.invalidEncoding "non-UTF-8 header key")
        | some key =>
          match fromUtf8 value with
          | none => .error (.invalidEncoding "non-UTF-8 header value")
          | some value =>
            let (value, next) := continuationLoop (next.length + 1) next value
            headerLoop fuel next (pairs ++ [(key, value)])

/-! ## Bodies -/

def findEnd (type : String) : Nat → Bytes → Nat → Except PemError Nat
  | 0, _, _ => .error (.invalidEncoding "missing END line")
  | fuel + 1, body, searchPos =>
    if body.length ≤ searchPos then .error (.invalidEncoding "missing END line")
    else
      match findPattern (body.drop searchPos) END_MARKER with
      | none => .error (.invalidEncoding "missing END line")
      | some endOffset =>
        let candidate := searchPos + endOffset
        let endRest := body.drop candidate
        let endLine := endRest.take (endRest.findIdx isBreak)
        let endLabelBytes := endLine.drop END_MARKER.length
        if endsInMarker endLabelBytes then
          let endLabel :=
            endLabelBytes.take (endLabelBytes.length - MARKER_END.length)
          if endLabel = utf8 type then .ok candidate
          else .error (.labelMismatch type
            ((fromUtf8 endLabel).getD "(invalid UTF-8)"))
        else findEnd type fuel body (candidate + 1)

def isBase64Octet (b : UInt8) : Bool :=
  (65 ≤ b && b ≤ 90) || (97 ≤ b && b ≤ 122) || (48 ≤ b && b ≤ 57) ||
    b == 43 || b == 47 || b == 61

def isSkipped (b : UInt8) : Bool :=
  b == 32 || b == 9 || b == 13 || b == 10 || b == 0x0B || b == 0x0C

def cleanBase64 : Bytes → Except PemError Bytes
  | [] => .ok []
  | b :: rest =>
    if isBase64Octet b then (cleanBase64 rest).map (b :: ·)
    else if isSkipped b then cleanBase64 rest
    else .error (.invalidEncoding "invalid character in base64 body")

def parseBody (unit : VectorUnit) (T : Target) (type : String)
    (headers : List (String × String)) (body : Bytes) : Except PemError (Block × Bytes) :=
  match findEnd type (body.length + 1) body 0 with
  | .error error => .error error
  | .ok dataEnd =>
    match cleanBase64 (body.take dataEnd) with
    | .error error => .error error
    | .ok clean =>
      match Base64.decode unit T clean .standard with
      | .error error => .error (.base64 error)
      | .ok contents =>
        let endRemaining := body.drop dataEnd
        .ok (⟨type, headers, contents⟩, endRemaining.drop (lineAdvance endRemaining))

def parseOneBlock (unit : VectorUnit) (T : Target) (input : Bytes) :
    Except PemError (Block × Bytes) :=
  match parseBegin input with
  | .error error => .error error
  | .ok (type, cursor) =>
    match headerLoop (cursor.length + 1) cursor [] with
    | .error error => .error error
    | .ok (headers, .closed rest) => .ok (⟨type, headers, []⟩, rest)
    | .ok (headers, .body body) => parseBody unit T type headers body

/-- `Blocks::next`: the item, and the input that is left. -/
def next (unit : VectorUnit) (T : Target) (input : Bytes) :
    Option (Except PemError Block × Bytes) :=
  if input = [] then none
  else
    match parseOneBlock unit T input with
    | .ok (block, rest) => some (.ok block, rest)
    | .error error => some (.error error, [])

def items (unit : VectorUnit) (T : Target) : Nat → Bytes → List (Except PemError Block)
  | 0, _ => []
  | fuel + 1, input =>
    match next unit T input with
    | none => []
    | some (item, rest) => item :: items unit T fuel rest

def decode (unit : VectorUnit) (T : Target) (pem : Bytes) : List (Except PemError Block) :=
  items unit T (pem.length + 1) pem

end Stdx.Encoding.Pem
