import Stdx.Foundation.Loop
import Stdx.Foundation.Octets
import Stdx.Foundation.Outcome

/-!
# The constant-time base32 codec

The scalar paths of `base32/base32.rs`.  Buffers are octet lists written in place; the
unrolled rounds of the source go over eight groups, and a group is one definition here.
Rust's `const fn` loops are the loops of `Foundation.Loop`.
-/

namespace Stdx.Base32

open Stdx.Foundation

/-- `b'='` -/
def PAD : UInt8 := 61

def Z32_DECODE_TABLE : Bytes := [
  0x20, 0x20, 0x20, 0x20, 0x20, 0x20, 0x20, 0x20, 0x20, 0x20, 0x20, 0x20, 0x20, 0x20, 0x20, 0x20,
  0x20, 0x20, 0x20, 0x20, 0x20, 0x20, 0x20, 0x20, 0x20, 0x20, 0x20, 0x20, 0x20, 0x20, 0x20, 0x20,
  0x20, 0x20, 0x20, 0x20, 0x20, 0x20, 0x20, 0x20, 0x20, 0x20, 0x20, 0x20, 0x20, 0x20, 0x20, 0x20,
  0x20, 0x12, 0x20, 0x19, 0x1a, 0x1b, 0x1e, 0x1d, 0x07, 0x1f, 0x20, 0x20, 0x20, 0x20, 0x20, 0x20,
  0x20, 0x20, 0x20, 0x20, 0x20, 0x20, 0x20, 0x20, 0x20, 0x20, 0x20, 0x20, 0x20, 0x20, 0x20, 0x20,
  0x20, 0x20, 0x20, 0x20, 0x20, 0x20, 0x20, 0x20, 0x20, 0x20, 0x20, 0x20, 0x20, 0x20, 0x20, 0x20,
  0x20, 0x18, 0x01, 0x0c, 0x03, 0x08, 0x05, 0x06, 0x1c, 0x15, 0x09, 0x0a, 0x20, 0x0b, 0x02, 0x10,
  0x0d, 0x0e, 0x04, 0x16, 0x11, 0x13, 0x20, 0x14, 0x0f, 0x00, 0x17, 0x20, 0x20, 0x20, 0x20, 0x20,
  0x20, 0x20, 0x20, 0x20, 0x20, 0x20, 0x20, 0x20, 0x20, 0x20, 0x20, 0x20, 0x20, 0x20, 0x20, 0x20,
  0x20, 0x20, 0x20, 0x20, 0x20, 0x20, 0x20, 0x20, 0x20, 0x20, 0x20, 0x20, 0x20, 0x20, 0x20, 0x20,
  0x20, 0x20, 0x20, 0x20, 0x20, 0x20, 0x20, 0x20, 0x20, 0x20, 0x20, 0x20, 0x20, 0x20, 0x20, 0x20,
  0x20, 0x20, 0x20, 0x20, 0x20, 0x20, 0x20, 0x20, 0x20, 0x20, 0x20, 0x20, 0x20, 0x20, 0x20, 0x20,
  0x20, 0x20, 0x20, 0x20, 0x20, 0x20, 0x20, 0x20, 0x20, 0x20, 0x20, 0x20, 0x20, 0x20, 0x20, 0x20,
  0x20, 0x20, 0x20, 0x20, 0x20, 0x20, 0x20, 0x20, 0x20, 0x20, 0x20, 0x20, 0x20, 0x20, 0x20, 0x20,
  0x20, 0x20, 0x20, 0x20, 0x20, 0x20, 0x20, 0x20, 0x20, 0x20, 0x20, 0x20, 0x20, 0x20, 0x20, 0x20,
  0x20, 0x20, 0x20, 0x20, 0x20, 0x20, 0x20, 0x20, 0x20, 0x20, 0x20, 0x20, 0x20, 0x20, 0x20, 0x20]

/-- `b"ybndrfg8ejkmcpqxot1uwisza345h769"` -/
def Z32_ENCODE_TABLE : Bytes := [
  121, 98, 110, 100, 114, 102, 103, 56, 101, 106, 107, 109, 99, 112, 113, 120,
  111, 116, 49, 117, 119, 105, 115, 122, 97, 51, 52, 53, 104, 55, 54, 57]

inductive Alphabet where
  | crockford
  | rfc4648
  | rfc4648NoPadding
  | rfc4648Lower
  | rfc4648LowerNoPadding
  | rfc4648Hex
  | rfc4648HexNoPadding
  | rfc4648HexLower
  | rfc4648HexLowerNoPadding
  | z32
  deriving DecidableEq, Repr

def Alphabet.isPadded : Alphabet → Bool
  | .crockford => false
  | .rfc4648 => true
  | .rfc4648NoPadding => false
  | .rfc4648Lower => true
  | .rfc4648LowerNoPadding => false
  | .rfc4648Hex => true
  | .rfc4648HexNoPadding => false
  | .rfc4648HexLower => true
  | .rfc4648HexLowerNoPadding => false
  | .z32 => false

inductive EncodeError where
  | invalidOutputLength
  deriving DecidableEq, Repr

inductive DecodeError where
  | invalidInput
  | invalidLength
  | invalidPadding
  deriving DecidableEq, Repr

/-- A result of `usize` arithmetic, where it does not overflow. -/
def checked (T : Target) (n : Nat) : Option Nat := if n < 2 ^ T.usizeBits then some n else none

def encodedLength (T : Target) (bytesLen : Nat) (padding : Bool) : Option Nat :=
  if bytesLen = 0 then some 0
  else do
    let completeChunks := bytesLen / 5
    let base ← checked T (completeChunks * 8)
    let rem := bytesLen % 5
    if rem = 0 then some base
    else if padding then checked T (base + 8)
    else do
      let bits ← checked T (bytesLen * 8)
      let v ← checked T (bits + 4)
      some (v / 5)

/-! ## Characters and quintets -/

/-- `0x00` if `lo <= v <= hi`, else `0xff`, by sign propagation. -/
def notInRange (v lo hi : UInt8) : UInt8 :=
  (((v - lo).toInt8 ||| (hi - v).toInt8) >>> 7).toUInt8

def checkTrailingBits (value maxPad : UInt8) : UInt8 :=
  let mask := (1 <<< maxPad) - 1
  let padBits := value &&& mask
  ~~~notInRange padBits 1 mask &&& 0x20

def quintetToCrockford (v : UInt8) : UInt8 :=
  let not0_9 := notInRange v 0 9
  let not10_17 := notInRange v 10 17
  let not18_19 := notInRange v 18 19
  let not20_21 := notInRange v 20 21
  let not22_26 := notInRange v 22 26
  let not27_31 := notInRange v 27 31
  ((v + 48) &&& ~~~not0_9) ||| ((v + 55) &&& ~~~not10_17) ||| ((v + 56) &&& ~~~not18_19) |||
    ((v + 57) &&& ~~~not20_21) ||| ((v + 58) &&& ~~~not22_26) ||| ((v + 59) &&& ~~~not27_31)

def quintetToRanges (last first second v : UInt8) : UInt8 :=
  let notFirst := notInRange v 0 last
  let notSecond := notInRange v (last + 1) 31
  ((v + first) &&& ~~~notFirst) ||| ((v - (last + 1) + second) &&& ~~~notSecond)

def quintetToChar (v : UInt8) : Alphabet → UInt8
  | .crockford => quintetToCrockford v
  | .rfc4648 | .rfc4648NoPadding => quintetToRanges 25 65 50 v
  | .rfc4648Lower | .rfc4648LowerNoPadding => quintetToRanges 25 97 50 v
  | .rfc4648Hex | .rfc4648HexNoPadding => quintetToRanges 9 48 65 v
  | .rfc4648HexLower | .rfc4648HexLowerNoPadding => quintetToRanges 9 48 97 v
  | .z32 => Z32_ENCODE_TABLE.getD v.toNat 0

def crockfordToQuintet (c : UInt8) : UInt8 :=
  let not0_9 := notInRange c 48 57
  let notA_H := notInRange c 65 72
  let notJ_K := notInRange c 74 75
  let notM_N := notInRange c 77 78
  let notP_T := notInRange c 80 84
  let notV_Z := notInRange c 86 90
  let value := ((c - 48) &&& ~~~not0_9) ||| ((c - 65 + 10) &&& ~~~notA_H) |||
    ((c - 74 + 18) &&& ~~~notJ_K) ||| ((c - 77 + 20) &&& ~~~notM_N) |||
    ((c - 80 + 22) &&& ~~~notP_T) ||| ((c - 86 + 27) &&& ~~~notV_Z)
  let invalid := not0_9 &&& notA_H &&& notJ_K &&& notM_N &&& notP_T &&& notV_Z
  value ||| (invalid &&& 0x20)

def rangesToQuintet (first firstEnd second secondEnd base c : UInt8) : UInt8 :=
  let notFirst := notInRange c first firstEnd
  let notSecond := notInRange c second secondEnd
  let value := ((c - first) &&& ~~~notFirst) ||| ((c - second + base) &&& ~~~notSecond)
  let invalid := notFirst &&& notSecond
  value ||| (invalid &&& 0x20)

/-- Valid characters give 0 to 31; bit 5 marks every other one. -/
def charToQuintet (c : UInt8) : Alphabet → UInt8
  | .crockford => crockfordToQuintet c
  | .rfc4648 | .rfc4648NoPadding => rangesToQuintet 65 90 50 55 26 c
  | .rfc4648Lower | .rfc4648LowerNoPadding => rangesToQuintet 97 122 50 55 26 c
  | .rfc4648Hex | .rfc4648HexNoPadding => rangesToQuintet 48 57 65 86 10 c
  | .rfc4648HexLower | .rfc4648HexLowerNoPadding => rangesToQuintet 48 57 97 118 10 c
  | .z32 => Z32_DECODE_TABLE.getD c.toNat 0

/-! ## Encoding -/

/-- `output[o] = x0; output[o + 1] = x1; ..` -/
@[grind =]
def storeAt (output : Bytes) (o : Nat) : Bytes → Bytes
  | [] => output
  | x :: xs => storeAt (output.set o x) (o + 1) xs

/-- The `n`-th of the groups from input index `start` on, at output index `o`. -/
def encodeBlock (alphabet : Alphabet) (data : Bytes) (start n : Nat) (output : Bytes) : Bytes :=
  let i := start + n * 5
  let b0 := data.getD i 0
  let b1 := data.getD (i + 1) 0
  let b2 := data.getD (i + 2) 0
  let b3 := data.getD (i + 3) 0
  let b4 := data.getD (i + 4) 0
  let q0 := b0 >>> 3
  let q1 := ((b0 &&& 0x07) <<< 2) ||| (b1 >>> 6)
  let q2 := (b1 >>> 1) &&& 0x1f
  let q3 := ((b1 &&& 0x01) <<< 4) ||| (b2 >>> 4)
  let q4 := ((b2 &&& 0x0f) <<< 1) ||| (b3 >>> 7)
  let q5 := (b3 >>> 2) &&& 0x1f
  let q6 := ((b3 &&& 0x03) <<< 3) ||| (b4 >>> 5)
  let q7 := b4 &&& 0x1f
  let o := start / 5 * 8 + n * 8
  storeAt output o [quintetToChar q0 alphabet, quintetToChar q1 alphabet,
    quintetToChar q2 alphabet, quintetToChar q3 alphabet, quintetToChar q4 alphabet,
    quintetToChar q5 alphabet, quintetToChar q6 alphabet, quintetToChar q7 alphabet]

/-- `while i + 5 * count <= len`, `count` groups a round. -/
def encodeBlocks (alphabet : Alphabet) (data : Bytes) (count : Nat) : Nat × Bytes → Nat × Bytes :=
  whileLoop (fun s => decide (s.1 + 5 * count ≤ data.length))
    (fun s => (s.1 + 5 * count, forRange 0 count (encodeBlock alphabet data s.1) s.2))
    (data.length + 1)

def encodeTail (alphabet : Alphabet) (data : Bytes) (i : Nat) (output : Bytes) : Bytes :=
  let rem := data.length - i
  if rem > 0 then
    let o := i / 5 * 8
    let b0 := data.getD i 0
    let q0 := b0 >>> 3
    let q1 := (b0 &&& 0x07) <<< 2
    let output := storeAt output o [quintetToChar q0 alphabet, quintetToChar q1 alphabet]
    let output :=
      if rem ≥ 2 then
        let b1 := data.getD (i + 1) 0
        let q1 := ((b0 &&& 0x07) <<< 2) ||| (b1 >>> 6)
        let q2 := (b1 >>> 1) &&& 0x1f
        let q3 := (b1 &&& 0x01) <<< 4
        let output := storeAt output (o + 1) [quintetToChar q1 alphabet,
          quintetToChar q2 alphabet, quintetToChar q3 alphabet]
        if rem ≥ 3 then
          let b2 := data.getD (i + 2) 0
          let q3 := ((b1 &&& 0x01) <<< 4) ||| (b2 >>> 4)
          let q4 := (b2 &&& 0x0f) <<< 1
          let output := storeAt output (o + 3)
            [quintetToChar q3 alphabet, quintetToChar q4 alphabet]
          if rem = 4 then
            let b3 := data.getD (i + 3) 0
            let q4 := ((b2 &&& 0x0f) <<< 1) ||| (b3 >>> 7)
            let q5 := (b3 >>> 2) &&& 0x1f
            let q6 := (b3 &&& 0x03) <<< 3
            storeAt output (o + 4) [quintetToChar q4 alphabet, quintetToChar q5 alphabet,
              quintetToChar q6 alphabet]
          else output
        else output
      else output
    if alphabet.isPadded then
      let padStart := match rem with
        | 1 => o + 2
        | 2 => o + 4
        | 3 => o + 5
        | _ => o + 7
      let padEnd := o + 8
      forRange padStart (padEnd - padStart) (fun p output => output.set p PAD) output
    else output
  else output

/-- `none` is the panic of `expect`. -/
def encodeIntoConstantTime (T : Target) (output data : Bytes) (alphabet : Alphabet) :
    Option (Except EncodeError Unit × Bytes) := do
  let expected ← encodedLength T data.length alphabet.isPadded
  if output.length < expected then some (.error .invalidOutputLength, output)
  else
    let s := encodeBlocks alphabet data 8 (0, output)
    let s := encodeBlocks alphabet data 1 s
    some (.ok (), encodeTail alphabet data s.1 s.2)

/-! ## Decoding -/

def decodedLength (encodedContentLen : Nat) : Except DecodeError Nat :=
  let base := encodedContentLen / 8 * 5
  match encodedContentLen % 8 with
  | 0 => .ok base
  | 2 => .ok (base + 1)
  | 4 => .ok (base + 2)
  | 5 => .ok (base + 3)
  | 7 => .ok (base + 4)
  | _ => .error .invalidLength

/-- `x & m | y & !m` for the mask `m = (all_pad as i8 >> 7) as usize`. -/
def selectPad (allPad : UInt8) (x y : Nat) : Nat := if allPad.toInt8 >>> 7 = -1 then x else y

def countTrailingPadding (data : Bytes) : Nat :=
  let len := data.length
  let maxCheck := if len < 7 then len else 7
  (forRange 0 maxCheck (fun k s =>
    let isPad : UInt8 := if data.getD (len - 1 - k) 0 = PAD then 0xff else 0x00
    let allPad := s.2 &&& isPad
    (selectPad allPad (k + 1) s.1, allPad)) (0, (0xff : UInt8))).1

def stripPaddingInfo (data : Bytes) (expectPadding : Bool) : Except DecodeError (Nat × Nat) :=
  let inLen := data.length
  if expectPadding then
    if inLen = 0 then .ok (0, 0)
    else
      let count := countTrailingPadding data
      let contentLen := inLen - count
      let err := (decide (count > 0) && inLen % 8 != 0) || decide (count > 6) ||
        (decide (count > 0) && match count with
          | 6 => contentLen % 8 != 2
          | 4 => contentLen % 8 != 4
          | 3 => contentLen % 8 != 5
          | 1 => contentLen % 8 != 7
          | _ => true)
      if err then .error .invalidPadding else .ok (contentLen, count)
  else if inLen > 0 ∧ data.getD (inLen - 1) 0 = PAD then .error .invalidPadding
  else .ok (inLen, 0)

/-- The loop state: both indices, the error bits and the output. -/
structure DecodeState where
  i : Nat
  o : Nat
  err : UInt8
  output : Bytes
  deriving DecidableEq, Repr

def decode1quad (alphabet : Alphabet) (data : Bytes) (s : DecodeState) : DecodeState :=
  let v0 := charToQuintet (data.getD s.i 0) alphabet
  let v1 := charToQuintet (data.getD (s.i + 1) 0) alphabet
  let v2 := charToQuintet (data.getD (s.i + 2) 0) alphabet
  let v3 := charToQuintet (data.getD (s.i + 3) 0) alphabet
  let v4 := charToQuintet (data.getD (s.i + 4) 0) alphabet
  let v5 := charToQuintet (data.getD (s.i + 5) 0) alphabet
  let v6 := charToQuintet (data.getD (s.i + 6) 0) alphabet
  let v7 := charToQuintet (data.getD (s.i + 7) 0) alphabet
  ⟨s.i + 8, s.o + 5, s.err ||| (v0 ||| v1 ||| v2 ||| v3 ||| v4 ||| v5 ||| v6 ||| v7),
    storeAt s.output s.o [(v0 <<< 3) ||| (v1 >>> 2), (v1 <<< 6) ||| (v2 <<< 1) ||| (v3 >>> 4),
      (v3 <<< 4) ||| (v4 >>> 1), (v4 <<< 7) ||| (v5 <<< 2) ||| (v6 >>> 3), (v6 <<< 5) ||| v7]⟩

def decode8quads (alphabet : Alphabet) (data : Bytes) (s : DecodeState) : DecodeState :=
  forRange 0 8 (fun _ => decode1quad alphabet data) s

def decodeTail (alphabet : Alphabet) (data : Bytes) (contentLen : Nat) (s : DecodeState) :
    Except DecodeError (UInt8 × Bytes) :=
  let v0 := charToQuintet (data.getD s.i 0) alphabet
  let v1 := charToQuintet (data.getD (s.i + 1) 0) alphabet
  let v2 := charToQuintet (data.getD (s.i + 2) 0) alphabet
  let v3 := charToQuintet (data.getD (s.i + 3) 0) alphabet
  let v4 := charToQuintet (data.getD (s.i + 4) 0) alphabet
  let v5 := charToQuintet (data.getD (s.i + 5) 0) alphabet
  let v6 := charToQuintet (data.getD (s.i + 6) 0) alphabet
  if s.i < contentLen then
    match contentLen - s.i with
    | 2 => .ok (s.err ||| (v0 ||| v1) ||| checkTrailingBits v1 2,
        storeAt s.output s.o [(v0 <<< 3) ||| (v1 >>> 2)])
    | 4 => .ok (s.err ||| (v0 ||| v1 ||| v2 ||| v3) ||| checkTrailingBits v3 4,
        storeAt s.output s.o [(v0 <<< 3) ||| (v1 >>> 2),
          (v1 <<< 6) ||| (v2 <<< 1) ||| (v3 >>> 4)])
    | 5 => .ok (s.err ||| (v0 ||| v1 ||| v2 ||| v3 ||| v4) ||| checkTrailingBits v4 1,
        storeAt s.output s.o [(v0 <<< 3) ||| (v1 >>> 2),
          (v1 <<< 6) ||| (v2 <<< 1) ||| (v3 >>> 4), (v3 <<< 4) ||| (v4 >>> 1)])
    | 7 => .ok (s.err ||| (v0 ||| v1 ||| v2 ||| v3 ||| v4 ||| v5 ||| v6) |||
          checkTrailingBits v6 3,
        storeAt s.output s.o [(v0 <<< 3) ||| (v1 >>> 2),
          (v1 <<< 6) ||| (v2 <<< 1) ||| (v3 >>> 4), (v3 <<< 4) ||| (v4 >>> 1),
          (v4 <<< 7) ||| (v5 <<< 2) ||| (v6 >>> 3)])
    | _ => .error .invalidLength
  else .ok (s.err, s.output)

def decodeIntoConstantTime (output encodedData : Bytes) (alphabet : Alphabet) :
    Except DecodeError Unit × Bytes :=
  if encodedData.length = 0 then (.ok (), output)
  else
    match stripPaddingInfo encodedData alphabet.isPadded with
    | .error error => (.error error, output)
    | .ok (contentLen, _) =>
      if contentLen = 0 then (.ok (), output)
      else
        match decodedLength contentLen with
        | .error error => (.error error, output)
        | .ok computedOutput =>
          if output.length < computedOutput then (.error .invalidLength, output)
          else
            let s := whileLoop (fun s => decide (s.i + 64 ≤ contentLen))
              (decode8quads alphabet encodedData) (contentLen + 1) ⟨0, 0, 0, output⟩
            let s := whileLoop (fun s => decide (s.i + 8 ≤ contentLen))
              (decode1quad alphabet encodedData) (contentLen + 1) s
            match decodeTail alphabet encodedData contentLen s with
            | .error error => (.error error, s.output)
            | .ok (err, output) =>
              if err ≥ 32 then (.error .invalidInput, output) else (.ok (), output)

end Stdx.Base32
