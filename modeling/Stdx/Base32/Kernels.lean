import Stdx.Base32.Codec
import Stdx.Foundation.VectorLoop

/-!
# The base32 kernels

`base32_neon.rs` and `base32_avx2.rs`, one group of five octets or eight characters at a time,
and the functions of `base32.rs` that dispatch to them.  There is no kernel for wasm.
-/

namespace Stdx.Base32

open Stdx.Foundation

/-! ## Tables -/

/-- `b"ABCDEFGHIJKLMNOPQRSTUVWXYZ234567"` -/
def MAP_RFC4648 : Bytes := [
  65, 66, 67, 68, 69, 70, 71, 72, 73, 74, 75, 76, 77, 78, 79, 80,
  81, 82, 83, 84, 85, 86, 87, 88, 89, 90, 50, 51, 52, 53, 54, 55]

/-- `b"abcdefghijklmnopqrstuvwxyz234567"` -/
def MAP_RFC4648_LOWER : Bytes := [
  97, 98, 99, 100, 101, 102, 103, 104, 105, 106, 107, 108, 109, 110, 111, 112,
  113, 114, 115, 116, 117, 118, 119, 120, 121, 122, 50, 51, 52, 53, 54, 55]

/-- `b"0123456789ABCDEFGHIJKLMNOPQRSTUV"` -/
def MAP_RFC4648_HEX : Bytes := [
  48, 49, 50, 51, 52, 53, 54, 55, 56, 57, 65, 66, 67, 68, 69, 70,
  71, 72, 73, 74, 75, 76, 77, 78, 79, 80, 81, 82, 83, 84, 85, 86]

/-- `b"0123456789abcdefghijklmnopqrstuv"` -/
def MAP_RFC4648_HEX_LOWER : Bytes := [
  48, 49, 50, 51, 52, 53, 54, 55, 56, 57, 97, 98, 99, 100, 101, 102,
  103, 104, 105, 106, 107, 108, 109, 110, 111, 112, 113, 114, 115, 116, 117, 118]

/-- `b"0123456789ABCDEFGHJKMNPQRSTVWXYZ"` -/
def MAP_CROCKFORD : Bytes := [
  48, 49, 50, 51, 52, 53, 54, 55, 56, 57, 65, 66, 67, 68, 69, 70,
  71, 72, 74, 75, 77, 78, 80, 81, 82, 83, 84, 86, 87, 88, 89, 90]

/-- `b"ybndrfg8ejkmcpqxot1uwisza345h769"` -/
def MAP_Z32 : Bytes := [
  121, 98, 110, 100, 114, 102, 103, 56, 101, 106, 107, 109, 99, 112, 113, 120,
  111, 116, 49, 117, 119, 105, 115, 122, 97, 51, 52, 53, 104, 55, 54, 57]

def tblBytes : Alphabet → Bytes
  | .rfc4648 | .rfc4648NoPadding => MAP_RFC4648
  | .rfc4648Lower | .rfc4648LowerNoPadding => MAP_RFC4648_LOWER
  | .rfc4648Hex | .rfc4648HexNoPadding => MAP_RFC4648_HEX
  | .rfc4648HexLower | .rfc4648HexLowerNoPadding => MAP_RFC4648_HEX_LOWER
  | .crockford => MAP_CROCKFORD
  | .z32 => MAP_Z32

/-! ## Encoding -/

def extractQuintets (b0 b1 b2 b3 b4 : UInt8) : Bytes :=
  [b0 >>> 3, ((b0 &&& 0x07) <<< 2) ||| (b1 >>> 6), (b1 >>> 1) &&& 0x1f,
    ((b1 &&& 0x01) <<< 4) ||| (b2 >>> 4), ((b2 &&& 0x0f) <<< 1) ||| (b3 >>> 7),
    (b3 >>> 2) &&& 0x1f, ((b3 &&& 0x03) <<< 3) ||| (b4 >>> 5), b4 &&& 0x1f]

def Neon.vtbl (tbl : Bytes) (index : UInt8) : UInt8 :=
  let inRange := index &&& 0x0f
  let useTbl0 := laneMask (decide (0x10 > index))
  let lo := tbl.getD inRange.toNat 0
  let hi := tbl.getD (16 + inRange.toNat) 0
  bitSelect useTbl0 lo hi

def Avx2.vtbl (tbl : Bytes) (index : UInt8) : UInt8 :=
  let isLo := cmpgt 15 index
  let idx := index &&& 0x0f
  let charsLo := tbl.getD idx.toNat 0
  let charsHi := tbl.getD (16 + idx.toNat) 0
  blendv charsHi charsLo isLo

def encodeLane (vtbl : Bytes → UInt8 → UInt8) (alphabet : Alphabet) : Bytes → Bytes
  | [b0, b1, b2, b3, b4] => (extractQuintets b0 b1 b2 b3 b4).map (vtbl (tblBytes alphabet))
  | _ => []

/-- The scalar encoder on what the kernel leaves. -/
def encodeRest (T : Target) (alphabet : Alphabet) (output rest : Bytes) :
    Option (Except EncodeError Unit × Bytes) :=
  if rest.length > 0 then do
    let outLen ← encodedLength T rest.length alphabet.isPadded
    let (result, text) ← encodeIntoConstantTime T (output.take outLen) rest alphabet
    some (result, text ++ output.drop outLen)
  else some (.ok (), output)

/-- `while len >= width` over the groups of a block, then `next` on the rest. -/
def encodeRounds (width : Nat) (lane : Bytes → Bytes)
    (next : Bytes → Bytes → Option (Except EncodeError Unit × Bytes)) (output data : Bytes) :
    Option (Except EncodeError Unit × Bytes) := do
  let rounds := data.length / width
  let stored := mapGroups width (mapGroups 5 lane (width / 5)) rounds data
  let (result, text) ← next (output.drop stored.length) (data.drop (width * rounds))
  some (result, stored ++ text)

/-- Rounds of four groups, of two, and one group. -/
def Neon.encodeInto (T : Target) (output data : Bytes) (alphabet : Alphabet) :
    Option (Except EncodeError Unit × Bytes) :=
  let lane := encodeLane Neon.vtbl alphabet
  encodeRounds 20 lane (encodeRounds 10 lane (encodeRounds 5 lane (encodeRest T alphabet)))
    output data

def Avx2.encodeInto (T : Target) (output data : Bytes) (alphabet : Alphabet) :
    Option (Except EncodeError Unit × Bytes) :=
  encodeRounds 40 (encodeLane Avx2.vtbl alphabet) (encodeRest T alphabet) output data

/-- `none` is the panic of `expect`. -/
def encodeInto (unit : VectorUnit) (T : Target) (output data : Bytes) (alphabet : Alphabet) :
    Option (Except EncodeError Unit × Bytes) := do
  let expected ← encodedLength T data.length alphabet.isPadded
  if output.length < expected then some (.error .invalidOutputLength, output)
  else
    match unit with
    | .neon =>
      if data.length ≥ 40 then Neon.encodeInto T output data alphabet
      else encodeIntoConstantTime T output data alphabet
    | .avx2 =>
      if data.length ≥ 40 then Avx2.encodeInto T output data alphabet
      else encodeIntoConstantTime T output data alphabet
    | .simd128 | .scalar => encodeIntoConstantTime T output data alphabet

def encode (unit : VectorUnit) (T : Target) (data : Bytes) (alphabet : Alphabet) :
    Option Bytes := do
  let len ← encodedLength T data.length alphabet.isPadded
  match ← encodeInto unit T (List.replicate len 0) data alphabet with
  | (.ok _, output) => some output
  | (.error _, _) => none

/-! ## Decoding -/

/-- `(r1_lo, r1_hi, r1_sub, r2_lo, r2_hi, r2_sub)` -/
structure Ranges where
  r1Lo : UInt8
  r1Hi : UInt8
  r1Sub : UInt8
  r2Lo : UInt8
  r2Hi : UInt8
  r2Sub : UInt8

/-- The alphabets of two contiguous ranges; the others are decoded without vectors. -/
def ranges? : Alphabet → Option Ranges
  | .rfc4648 | .rfc4648NoPadding => some ⟨65, 90, 65, 50, 55, 50 - 26⟩
  | .rfc4648Lower | .rfc4648LowerNoPadding => some ⟨97, 122, 97, 50, 55, 50 - 26⟩
  | .rfc4648Hex | .rfc4648HexNoPadding => some ⟨48, 57, 48, 65, 86, 65 - 10⟩
  | .rfc4648HexLower | .rfc4648HexLowerNoPadding => some ⟨48, 57, 48, 97, 118, 97 - 10⟩
  | .crockford | .z32 => none

def Neon.charToQuintet (r : Ranges) (c : UInt8) : UInt8 :=
  let inR1 := laneMask (decide (c ≥ r.r1Lo)) &&& laneMask (decide (c ≤ r.r1Hi))
  let inR2 := laneMask (decide (c ≥ r.r2Lo)) &&& laneMask (decide (c ≤ r.r2Hi))
  let valR1 := c - r.r1Sub
  let valR2 := c - r.r2Sub
  let tmp := bitSelect inR2 valR2 0x20
  bitSelect inR1 valR1 tmp

def Avx2.charToQuintet (r : Ranges) (c : UInt8) : UInt8 :=
  let geR1Lo := cmpgt c (r.r1Lo - 1)
  let leR1Hi := 0xff ^^^ cmpgt c r.r1Hi
  let inR1 := geR1Lo &&& leR1Hi
  let geR2Lo := cmpgt c (r.r2Lo - 1)
  let leR2Hi := 0xff ^^^ cmpgt c r.r2Hi
  let inR2 := geR2Lo &&& leR2Hi
  let valR1 := c - r.r1Sub
  let valR2 := c - r.r2Sub
  let tmp := blendv 0x20 valR2 inR2
  blendv tmp valR1 inR1

def packQuintets (q0 q1 q2 q3 q4 q5 q6 q7 : UInt8) : Bytes :=
  [(q0 <<< 3) ||| (q1 >>> 2), (q1 <<< 6) ||| (q2 <<< 1) ||| (q3 >>> 4),
    (q3 <<< 4) ||| (q4 >>> 1), (q4 <<< 7) ||| (q5 <<< 2) ||| (q6 >>> 3), (q6 <<< 5) ||| q7]

/-- A group of eight characters, refused unless all quintets together stay below 32. -/
def decodeLane (quintet : UInt8 → UInt8) : Bytes → Option Bytes
  | [c0, c1, c2, c3, c4, c5, c6, c7] =>
    let q0 := quintet c0
    let q1 := quintet c1
    let q2 := quintet c2
    let q3 := quintet c3
    let q4 := quintet c4
    let q5 := quintet c5
    let q6 := quintet c6
    let q7 := quintet c7
    if q0 ||| q1 ||| q2 ||| q3 ||| q4 ||| q5 ||| q6 ||| q7 ≥ 32 then none
    else some (packQuintets q0 q1 q2 q3 q4 q5 q6 q7)
  | _ => none

/-- The same where each quintet is compared with 31 in its lane. -/
def Avx2.decodeLane (r : Ranges) : Bytes → Option Bytes
  | [c0, c1, c2, c3, c4, c5, c6, c7] =>
    let q0 := Avx2.charToQuintet r c0
    let q1 := Avx2.charToQuintet r c1
    let q2 := Avx2.charToQuintet r c2
    let q3 := Avx2.charToQuintet r c3
    let q4 := Avx2.charToQuintet r c4
    let q5 := Avx2.charToQuintet r c5
    let q6 := Avx2.charToQuintet r c6
    let q7 := Avx2.charToQuintet r c7
    if [q0, q1, q2, q3, q4, q5, q6, q7].any (fun q => cmpgt q 31 != 0) then none
    else some (packQuintets q0 q1 q2 q3 q4 q5 q6 q7)
  | _ => none

/-- `while len >= width` over the groups of a block, then the scalar decoder on the rest. -/
def decodeRounds (width : Nat) (lane : Bytes → Option Bytes) (output content : Bytes)
    (alphabet : Alphabet) : Except DecodeError Unit × Bytes :=
  match vectorLoop width (inGroups 8 lane (width / 8)) (content.length / width) content with
  | (stored, none) => (.error .invalidInput, stored ++ output.drop stored.length)
  | (stored, some rest) =>
    let output := output.drop stored.length
    if rest.length > 0 then
      let outLen := max (rest.length * 5 / 8) 1
      match decodeIntoConstantTime (output.take outLen) rest alphabet with
      | (result, octets) => (result, stored ++ octets ++ output.drop outLen)
    else (.ok (), stored ++ output)

def Neon.decodeInto (output content : Bytes) (alphabet : Alphabet) :
    Except DecodeError Unit × Bytes :=
  match ranges? alphabet with
  | none => decodeRounds 8 (decodeLane (Base32.charToQuintet · alphabet)) output content alphabet
  | some r => decodeRounds 8 (decodeLane (Neon.charToQuintet r)) output content alphabet

def Avx2.decodeInto (output content : Bytes) (alphabet : Alphabet) :
    Except DecodeError Unit × Bytes :=
  match ranges? alphabet with
  | none =>
    decodeRounds 8 (Base32.decodeLane (Base32.charToQuintet · alphabet)) output content alphabet
  | some r => decodeRounds 32 (Avx2.decodeLane r) output content alphabet

def decodeInto (unit : VectorUnit) (output encodedData : Bytes) (alphabet : Alphabet) :
    Except DecodeError Unit × Bytes :=
  match stripPaddingInfo encodedData alphabet.isPadded with
  | .error error => (.error error, output)
  | .ok (contentLen, _) =>
    match decodedLength contentLen with
    | .error error => (.error error, output)
    | .ok computedOutput =>
      if output.length < computedOutput then (.error .invalidLength, output)
      else
        match unit with
        | .neon =>
          if contentLen ≥ 64 then Neon.decodeInto output (encodedData.take contentLen) alphabet
          else decodeIntoConstantTime output encodedData alphabet
        | .avx2 =>
          if contentLen ≥ 32 then Avx2.decodeInto output (encodedData.take contentLen) alphabet
          else decodeIntoConstantTime output encodedData alphabet
        | .simd128 | .scalar => decodeIntoConstantTime output encodedData alphabet

def decode (unit : VectorUnit) (data : Bytes) (alphabet : Alphabet) :
    Except DecodeError Bytes := do
  let (contentLen, _) ← stripPaddingInfo data alphabet.isPadded
  let outputLen ← decodedLength contentLen
  match decodeInto unit (List.replicate outputLen 0) data alphabet with
  | (.ok _, output) => .ok output
  | (.error error, _) => .error error

end Stdx.Base32
