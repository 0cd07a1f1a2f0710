import Stdx.Foundation.VectorLoop
import Stdx.Hex.Codec

/-!
# The hex decoders of the vector units

`decode_into` of `hex_neon.rs`, `hex_avx2.rs` and `hex_wasm_simd128.rs`, a pair of characters
at a time, and the functions of `hex.rs` that dispatch to them.
-/

namespace Stdx.Hex

open Stdx.Foundation

def Neon.isDigit (c : UInt8) : UInt8 := laneMask (decide (c > 47)) &&& laneMask (decide (c ≤ 57))
def Neon.isUpper (c : UInt8) : UInt8 := laneMask (decide (c > 64)) &&& laneMask (decide (c ≤ 70))
def Neon.isLower (c : UInt8) : UInt8 := laneMask (decide (c > 96)) &&& laneMask (decide (c ≤ 102))

def Neon.valid (c : UInt8) : UInt8 := Neon.isDigit c ||| Neon.isUpper c ||| Neon.isLower c

def Neon.nibbleByte (c : UInt8) : UInt8 :=
  (Neon.isDigit c &&& (c - 48)) ||| (Neon.isUpper c &&& (c - 55)) |||
    (Neon.isLower c &&& (c - 87))

def Neon.decodeLane : Bytes → Option Bytes
  | [h, l] =>
    if Neon.valid h &&& Neon.valid l ≠ 0xff then none
    else
      -- `mult` alternates the octets of `0x0110`
      let pHi := (Neon.nibbleByte h).toUInt16 * 0x10
      let pLo := (Neon.nibbleByte l).toUInt16 * 0x01
      some [(pHi + pLo).toUInt8]
  | _ => none

/-- `cmpeq(max(c, lo), c) & cmpeq(min(c, hi), c)` -/
def Avx2.isBetween (lo hi c : UInt8) : UInt8 := cmpeq (max c lo) c &&& cmpeq (min c hi) c

def Avx2.valid (c : UInt8) : UInt8 :=
  Avx2.isBetween 48 57 c ||| (Avx2.isBetween 65 70 c ||| Avx2.isBetween 97 102 c)

def Avx2.nibble (c : UInt8) : UInt8 :=
  (Avx2.isBetween 48 57 c &&& (c - 48)) ||| (Avx2.isBetween 65 70 c &&& (c - (65 - 10))) |||
    (Avx2.isBetween 97 102 c &&& (c - (97 - 10)))

def Avx2.decodeLane : Bytes → Option Bytes
  | [h, l] =>
    if Avx2.valid h &&& Avx2.valid l ≠ 0xff then none
    else
      let packed16 := (Avx2.nibble h).toUInt16 * 0x10 + (Avx2.nibble l).toUInt16 * 0x01
      some [packed16.toUInt8]
  | _ => none

/-- `u8x16_ge` includes the bounds 47, 64 and 96; what is in no range gives 0. -/
def Simd128.classifyNibble (c : UInt8) : UInt8 :=
  let isDigit := laneMask (decide (c ≥ 47)) &&& laneMask (decide (c ≤ 57))
  let isUpper := laneMask (decide (c ≥ 64)) &&& laneMask (decide (c ≤ 70))
  let isLower := laneMask (decide (c ≥ 96)) &&& laneMask (decide (c ≤ 102))
  let nd := c - 48
  let nu := c - 55
  let nl := c - 87
  (isDigit &&& nd) ||| (isUpper &&& nu) ||| (isLower &&& nl)

def Simd128.decodeLane : Bytes → Option Bytes
  | [h, l] =>
    let even := Simd128.classifyNibble h
    let odd := Simd128.classifyNibble l
    if even > 15 ∨ odd > 15 then none else some [(even <<< 4) ||| odd]
  | _ => none

/-- Rounds of 32 characters, then the scalar decoder on the rest. -/
def decodeVector (lane : Bytes → Option Bytes) (output input : Bytes) :
    Except DecodeError Unit × Bytes :=
  match vectorLoop 32 (inGroups 2 lane 16) (input.length / 32) input with
  | (stored, none) => (.error .invalidInput, stored ++ output.drop stored.length)
  | (stored, some rest) =>
    if rest.length > 0 then
      match decodeIntoConstantTime (output.drop stored.length) rest with
      | (result, octets) => (result, stored ++ octets)
    else (.ok (), stored ++ output.drop stored.length)

def decodeFrom (lane : Bytes → Option Bytes) (output encodedData : Bytes) :
    Except DecodeError Unit × Bytes :=
  if encodedData.length ≥ 32 then
    match checkDecodeInputAndOutputLength encodedData.length output.length with
    | .error error => (.error error, output)
    | .ok _ => decodeVector lane output encodedData
  else decodeIntoConstantTime output encodedData

def decodeInto (unit : VectorUnit) (output encodedData : Bytes) :
    Except DecodeError Unit × Bytes :=
  match unit with
  | .neon => decodeFrom Neon.decodeLane output encodedData
  | .avx2 => decodeFrom Avx2.decodeLane output encodedData
  | .simd128 => decodeFrom Simd128.decodeLane output encodedData
  | .scalar => decodeIntoConstantTime output encodedData

def decode (unit : VectorUnit) (data : Bytes) : Except DecodeError Bytes :=
  match decodeInto unit (List.replicate (data.length / 2) 0) data with
  | (.ok _, output) => .ok output
  | (.error error, _) => .error error

end Stdx.Hex
