import Stdx.Foundation.Loop
import Stdx.Foundation.Octets
import Stdx.Foundation.Outcome

/-!
# The constant-time base64 codec

The scalar paths of `base64/base64.rs`.  Buffers are octet lists written in
place with `List.set`; indexing past the end reads zero, which no loop below
does.  The unrolled bodies of the source write eight groups a round; a group is
one definition here and a round a `forRange` over the eight.
-/

namespace Stdx.Base64

open Stdx.Foundation

/-- `b'='` -/
def pad : UInt8 := 61

inductive Alphabet where
  | standard
  | standardNoPadding
  | url
  | urlNoPadding
  deriving DecidableEq, Repr

def Alphabet.isPadded : Alphabet → Bool
  | .standard | .url => true
  | .standardNoPadding | .urlNoPadding => false

def Alphabet.lastTwo : Alphabet → UInt8 × UInt8
  | .standard | .standardNoPadding => (43, 47)
  | .url | .urlNoPadding => (45, 95)

inductive EncodeError where
  | invalidOutputLength
  | outputOverflow
  deriving DecidableEq, Repr

inductive DecodeError where
  | invalidInput
  | invalidInputLength
  | invalidPadding
  | invalidOutputLength
  deriving DecidableEq, Repr

/-! ## Characters and sextets -/

/-- `0x00` if `lo <= v <= hi`, else `0xff`, by sign propagation. -/
def notInRange (v lo hi : UInt8) : UInt8 :=
  (((v - lo).toInt8 ||| (hi - v).toInt8) >>> 7).toUInt8

def sextetToBase64Char (v : UInt8) (alphabet : Alphabet) : UInt8 :=
  let v := v &&& 0x3f
  let notUpper := notInRange v 0 25
  let notLower := notInRange v 26 51
  let notDigit := notInRange v 52 61
  let not62 := notInRange v 62 62
  let not63 := notInRange v 63 63
  let upperVal := v + 65
  let lowerVal := v - 26 + 97
  let digitVal := v - 52 + 48
  let (ch62, ch63) := alphabet.lastTwo
  (upperVal &&& ~~~notUpper) ||| (lowerVal &&& ~~~notLower) |||
    (digitVal &&& ~~~notDigit) ||| (ch62 &&& ~~~not62) ||| (ch63 &&& ~~~not63)

/-- Valid characters give 0 to 63; bit 6 marks every other one. -/
def base64CharToSextet (c : UInt8) (alphabet : Alphabet) : UInt8 :=
  let notUpper := notInRange c 65 90
  let notLower := notInRange c 97 122
  let notDigit := notInRange c 48 57
  let upperVal := c - 65
  let lowerVal := c - 97 + 26
  let digitVal := c - 48 + 52
  let (ch62, ch63) := alphabet.lastTwo
  let not62 := notInRange c ch62 ch62
  let not63 := notInRange c ch63 ch63
  let value := (upperVal &&& ~~~notUpper) ||| (lowerVal &&& ~~~notLower) |||
    (digitVal &&& ~~~notDigit) ||| (62 &&& ~~~not62) ||| (63 &&& ~~~not63)
  let invalid := notUpper &&& notLower &&& notDigit &&& not62 &&& not63
  value ||| (invalid &&& 0x40)

/-! ## Encoding -/

/-- `choice as u8` turned into a mask. -/
def maskOf (choice : Bool) : UInt8 := 0 - (if choice then 1 else 0)

def encodedLength (T : Target) (dataLength : Nat) (padding : Bool) : Option Nat :=
  let completeChunks := dataLength / 3
  let remaining := dataLength % 3
  let base := completeChunks * 4
  if base ≥ 2 ^ T.usizeBits then none
  else if remaining = 0 then some base
  else if padding then
    if base + 4 < 2 ^ T.usizeBits then some (base + 4) else none
  else if remaining = 1 then some (base + 2)
  else some (base + 3)

def checkEncodeOutputLength (T : Target) (outputLength dataLength : Nat)
    (alphabet : Alphabet) : Except EncodeError Unit :=
  match encodedLength T dataLength alphabet.isPadded with
  | none => .error .outputOverflow
  | some length =>
    if outputLength ≠ length then .error .invalidOutputLength else .ok ()

/-- The four characters of three octets, written from `o` on. -/
def putQuad (alphabet : Alphabet) (b0 b1 b2 : UInt8) (o : Nat)
    (output : Bytes) : Bytes :=
  (((output.set o (sextetToBase64Char (b0 >>> 2) alphabet)).set (o + 1)
    (sextetToBase64Char (((b0 &&& 0x03) <<< 4) ||| (b1 >>> 4)) alphabet)).set
    (o + 2)
    (sextetToBase64Char (((b1 &&& 0x0f) <<< 2) ||| (b2 >>> 6)) alphabet)).set
    (o + 3) (sextetToBase64Char (b2 &&& 0x3f) alphabet)

def encodeGroup (alphabet : Alphabet) (data : Bytes) (i k : Nat)
    (output : Bytes) : Bytes :=
  putQuad alphabet (data.getD (i + 3 * k) 0) (data.getD (i + 3 * k + 1) 0)
    (data.getD (i + 3 * k + 2) 0) (i / 3 * 4 + 4 * k) output

/-- `while i + 3 * count <= len`: `count` groups a round, then `i += 3 * count`. -/
def encodeBlocks (alphabet : Alphabet) (data : Bytes) (count : Nat) :
    Nat × Bytes → Nat × Bytes :=
  whileLoop (fun s => decide (s.1 + 3 * count ≤ data.length))
    (fun s => (s.1 + 3 * count,
      forRange 0 count (encodeGroup alphabet data s.1) s.2))
    (data.length + 1)

def encodeTail (alphabet : Alphabet) (data : Bytes) (i : Nat)
    (output : Bytes) : Bytes :=
  let len := data.length
  let remaining := len - i
  if remaining > 0 then
    let o := i / 3 * 4
    let b0 := data.getD i 0
    let b1 := if i + 1 < len then data.getD (i + 1) 0 else 0
    let m1 := maskOf (remaining = 1)
    let m2 := maskOf (remaining = 2)
    let output := output.set o (sextetToBase64Char (b0 >>> 2) alphabet)
    let o1Rem1 := sextetToBase64Char ((b0 &&& 0x03) <<< 4) alphabet
    let o1Rem2 :=
      sextetToBase64Char (((b0 &&& 0x03) <<< 4) ||| (b1 >>> 4)) alphabet
    let output := output.set (o + 1) ((o1Rem1 &&& m1) ||| (o1Rem2 &&& m2))
    let o2Rem2 := sextetToBase64Char ((b1 &&& 0x0f) <<< 2) alphabet
    if alphabet.isPadded then
      (output.set (o + 2) ((pad &&& m1) ||| (o2Rem2 &&& m2))).set (o + 3) pad
    else if remaining = 2 then output.set (o + 2) o2Rem2
    else output
  else output

def encodeIntoConstantTime (T : Target) (output data : Bytes)
    (alphabet : Alphabet) : Except EncodeError Unit × Bytes :=
  match checkEncodeOutputLength T output.length data.length alphabet with
  | .error error => (.error error, output)
  | .ok _ =>
    let s := encodeBlocks alphabet data 8 (0, output)
    let s := encodeBlocks alphabet data 1 s
    (.ok (), encodeTail alphabet data s.1 s.2)

/-! ## Decoding -/

def stripPaddingInfo (data : Bytes) (expectPadding : Bool) :
    Except DecodeError (Nat × Nat) :=
  let inLen := data.length
  if !expectPadding then
    let lastIsPad := if inLen > 0 then data.getD (inLen - 1) 0 == pad else false
    if lastIsPad then .error .invalidPadding else .ok (inLen, 0)
  else
    let b0 := if inLen > 0 then data.getD (inLen - 1) 0 else 0
    let b1 := if inLen > 1 then data.getD (inLen - 2) 0 else 0
    let b2 := if inLen > 2 then data.getD (inLen - 3) 0 else 0
    let p0 := (b0 == pad).toNat
    let p1 := (b1 == pad).toNat
    let p2 := (b2 == pad).toNat
    let padCount := p0 + (p0 &&& p1) + (p0 &&& p1 &&& p2)
    let contentLen := inLen - padCount
    let hasPads := (padCount != 0).toNat
    let lenMod4Ok := (inLen &&& 3 == 0).toNat
    let errLen := hasPads &&& (1 - lenMod4Ok)
    let errPad := (decide (padCount > 2)).toNat
    if errLen ≠ 0 then .error .invalidInputLength
    else
      let contentMod4 := contentLen &&& 3
      let expectedMod4 := 4 - padCount
      let mod4Ok := (contentMod4 == expectedMod4).toNat
      let errPad := errPad ||| (hasPads &&& (1 - mod4Ok))
      if errPad ≠ 0 then .error .invalidPadding
      else .ok (contentLen, padCount)

def decodedLength (T : Target) (encodedDataLength : Nat) :
    Except DecodeError Nat :=
  let base := encodedDataLength / 4 * 3
  if base ≥ 2 ^ T.usizeBits then .error .invalidInputLength
  else
    match encodedDataLength % 4 with
    | 0 => .ok base
    | 2 =>
      if base + 1 < 2 ^ T.usizeBits then .ok (base + 1)
      else .error .invalidInputLength
    | 3 =>
      if base + 2 < 2 ^ T.usizeBits then .ok (base + 2)
      else .error .invalidInputLength
    | _ => .error .invalidInputLength

/-- The loop state: both indices, the error bits and the output. -/
structure DecodeState where
  i : Nat
  o : Nat
  err : UInt8
  output : Bytes
  deriving DecidableEq, Repr

/-- Four characters from `i` to three octets at `o`, invalid ones noted in `err`. -/
def putTriple (alphabet : Alphabet) (data : Bytes) (i o : Nat)
    (s : UInt8 × Bytes) : UInt8 × Bytes :=
  let v0 := base64CharToSextet (data.getD i 0) alphabet
  let v1 := base64CharToSextet (data.getD (i + 1) 0) alphabet
  let v2 := base64CharToSextet (data.getD (i + 2) 0) alphabet
  let v3 := base64CharToSextet (data.getD (i + 3) 0) alphabet
  (s.1 ||| (v0 ||| v1 ||| v2 ||| v3),
    ((s.2.set o ((v0 <<< 2) ||| (v1 >>> 4))).set (o + 1)
      ((v1 <<< 4) ||| (v2 >>> 2))).set (o + 2) ((v2 <<< 6) ||| v3))

def decodeRound (alphabet : Alphabet) (data : Bytes) (count : Nat)
    (s : DecodeState) : DecodeState :=
  let (err, output) := forRange 0 count
    (fun k => putTriple alphabet data (s.i + 4 * k) (s.o + 3 * k))
    (s.err, s.output)
  ⟨s.i + 4 * count, s.o + 3 * count, err, output⟩

/-- `while i + 4 * count <= content_len` -/
def decodeBlocks (alphabet : Alphabet) (data : Bytes) (contentLen count : Nat) :
    DecodeState → DecodeState :=
  whileLoop (fun s => decide (s.i + 4 * count ≤ contentLen))
    (decodeRound alphabet data count) (contentLen + 1)

def decodeTail (alphabet : Alphabet) (data : Bytes) (contentLen : Nat)
    (s : DecodeState) : UInt8 × Bytes :=
  let remaining := contentLen - s.i
  let rem0 : UInt8 := if remaining = 0 then 1 else 0
  let rem2 : UInt8 := if remaining = 2 then 1 else 0
  let rem3 : UInt8 := if remaining = 3 then 1 else 0
  let validRem := rem0 ||| rem2 ||| rem3
  let err := s.err ||| ((1 - validRem) <<< 6)
  let rem2Mask := 0 - rem2
  let rem3Mask := 0 - rem3
  if remaining > 0 then
    let c0 := data.getD s.i 0
    let c1 := if s.i + 1 < contentLen then data.getD (s.i + 1) 0 else 65
    let c2 := if s.i + 2 < contentLen then data.getD (s.i + 2) 0 else 65
    let v0 := base64CharToSextet c0 alphabet
    let v1 := base64CharToSextet c1 alphabet
    let v2 := base64CharToSextet c2 alphabet
    let m0 := maskOf (s.i < contentLen)
    let m1 := maskOf (s.i + 1 < contentLen)
    let m2 := maskOf (s.i + 2 < contentLen)
    let err := err ||| ((v0 &&& m0) ||| (v1 &&& m1) ||| (v2 &&& m2))
    let v1Trailing := v1 &&& 0x0f
    let v2Trailing := v2 &&& 0x03
    let trailing := (v1Trailing &&& rem2Mask) ||| (v2Trailing &&& rem3Mask)
    let nonCanonical : UInt8 := if trailing ≠ 0 then 1 else 0
    let err := err ||| (nonCanonical <<< 6)
    let out0 := (v0 <<< 2) ||| (v1 >>> 4)
    let out1 := (v1 <<< 4) ||| (v2 >>> 2)
    let output := s.output.set s.o out0
    (err, if remaining = 3 then output.set (s.o + 1) out1 else output)
  else (err, s.output)

def decodeIntoConstantTime (T : Target) (output encodedData : Bytes)
    (alphabet : Alphabet) : Except DecodeError Nat × Bytes :=
  if encodedData.length = 0 then (.ok 0, output)
  else
    match stripPaddingInfo encodedData alphabet.isPadded with
    | .error error => (.error error, output)
    | .ok (contentLen, _) =>
      if contentLen = 0 then (.ok 0, output)
      else
        match decodedLength T contentLen with
        | .error error => (.error error, output)
        | .ok computedOutput =>
          if output.length < computedOutput then
            (.error .invalidOutputLength, output)
          else
            let s := decodeBlocks alphabet encodedData contentLen 8
              ⟨0, 0, 0, output⟩
            let s := decodeBlocks alphabet encodedData contentLen 1 s
            let t := decodeTail alphabet encodedData contentLen s
            if t.1 ≥ 64 then (.error .invalidInput, t.2)
            else (.ok computedOutput, t.2)

end Stdx.Base64
