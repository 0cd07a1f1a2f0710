import Stdx.Foundation.Loop
import Stdx.Foundation.Octets

/-!
# Hex decoding

The branch-free decoder of `hex.rs`, with the checks of both lengths.
-/

namespace Stdx.Hex

open Stdx.Foundation

inductive DecodeError where
  | invalidInput
  | invalidInputLength
  | invalidOutputLength
  deriving DecidableEq, Repr

/-- `(((c as i16) - lo) | (hi - (c as i16))) >> 8`, as an octet. -/
def outside (c : UInt8) (lo hi : Int16) : UInt8 :=
  (((c.toUInt16.toInt16 - lo) ||| (hi - c.toUInt16.toInt16)) >>> 8).toInt8.toUInt8

def nibbleFromHex (c : UInt8) : UInt8 :=
  let isDigit := outside c 48 57
  let isLower := outside c 97 102
  let isUpper := outside c 65 70
  let digitVal := c - 48
  let lowerVal := c - 97 + 10
  let upperVal := c - 65 + 10
  let value := (digitVal &&& ~~~isDigit) ||| (lowerVal &&& ~~~isLower) ||| (upperVal &&& ~~~isUpper)
  let invalid := isDigit &&& isLower &&& isUpper
  value ||| (invalid &&& 0xF0)

def checkDecodeInputAndOutputLength (encodedLength outputLength : Nat) : Except DecodeError Unit :=
  if encodedLength % 2 ≠ 0 then .error .invalidInputLength
  else if outputLength ≠ encodedLength / 2 then .error .invalidOutputLength
  else .ok ()

/-- The octet of the characters `i` and `i + 1`. -/
def decodePair (encodedData : Bytes) (i : Nat) (s : UInt8 × Bytes) : UInt8 × Bytes :=
  let h := nibbleFromHex (encodedData.getD i 0)
  let l := nibbleFromHex (encodedData.getD (i + 1) 0)
  (s.1 ||| (h ||| l), s.2.set (i / 2) ((h <<< 4) ||| l))

/-- `while i + 32 <= in_len`, sixteen octets a round. -/
def decodeRounds (encodedData : Bytes) : Nat × UInt8 × Bytes → Nat × UInt8 × Bytes :=
  whileLoop (fun s => decide (s.1 + 32 ≤ encodedData.length))
    (fun s => (s.1 + 32, forRange 0 16 (fun k => decodePair encodedData (s.1 + 2 * k)) s.2))
    (encodedData.length + 1)

/-- `while i < in_len` -/
def decodeRest (encodedData : Bytes) : Nat × UInt8 × Bytes → Nat × UInt8 × Bytes :=
  whileLoop (fun s => decide (s.1 < encodedData.length))
    (fun s => (s.1 + 2, decodePair encodedData s.1 s.2)) (encodedData.length + 1)

def decodeIntoConstantTime (output encodedData : Bytes) : Except DecodeError Unit × Bytes :=
  match checkDecodeInputAndOutputLength encodedData.length output.length with
  | .error error => (.error error, output)
  | .ok _ =>
    let s := decodeRounds encodedData (0, 0, output)
    let s := decodeRest encodedData s
    if s.2.1 &&& 0xF0 ≠ 0 then (.error .invalidInput, s.2.2) else (.ok (), s.2.2)

def decodeArray (size : Nat) (encodedData : Bytes) : Except DecodeError Bytes :=
  match decodeIntoConstantTime (List.replicate size 0) encodedData with
  | (.ok _, result) => .ok result
  | (.error error, _) => .error error

end Stdx.Hex
