import Stdx.Base64.Codec
import Stdx.Foundation.VectorLoop

/-!
# The vector kernels of base64

`base64_neon.rs`, `base64_avx2.rs` and `base64_wasm_simd128.rs`, and the dispatch of
`encode_into` and `decode_into` to them.  A kernel is given by what it does to the octets of
one 32-bit lane; the shuffles that bring them there and back are in the order of the lists.
-/

namespace Stdx.Base64

open Stdx.Foundation

def Alphabet.isUrl : Alphabet → Bool
  | .url | .urlNoPadding => true
  | .standard | .standardNoPadding => false

/-! ## Encoding -/

/-- `ALPHABET_STANDARD` and `ALPHABET_URL`.  `vld4q_u8` undoes the interleaving of the
constants that are made of them. -/
def Neon.table (alphabet : Alphabet) : Bytes :=
  [65, 66, 67, 68, 69, 70, 71, 72, 73, 74, 75, 76, 77, 78, 79, 80, 81, 82, 83, 84, 85, 86, 87, 88,
    89, 90, 97, 98, 99, 100, 101, 102, 103, 104, 105, 106, 107, 108, 109, 110, 111, 112, 113, 114,
    115, 116, 117, 118, 119, 120, 121, 122, 48, 49, 50, 51, 52, 53, 54, 55, 56, 57] ++
    if alphabet.isUrl then [45, 95] else [43, 47]

def Neon.encodeLane (alphabet : Alphabet) : Bytes → Bytes
  | [p0, p1, p2] =>
    let a := p0 >>> 2
    let b := ((p0 <<< 4) ||| (p1 >>> 4)) &&& 0x3f
    let c := ((p1 <<< 2) ||| (p2 >>> 6)) &&& 0x3f
    let d := p2 &&& 0x3f
    [a, b, c, d].map fun index => (Neon.table alphabet).getD index.toNat 0
  | _ => []

/-- The characters of the indices by range, as AVX2 and simd128 find them. -/
def shiftedChar (gt : UInt8 → UInt8 → Bool) (url : Bool) (index : UInt8) : UInt8 :=
  let result := index + 65
  let result := result + (laneMask (gt index 25) &&& 6)
  let result := result + (laneMask (gt index 51) &&& 181)
  let result := result + (cmpeq index 62 &&& 241)
  let result := result + (cmpeq index 63 &&& 244)
  if url then bitSelect (cmpeq index 63) 95 (bitSelect (cmpeq index 62) 45 result) else result

/-- `_mm256_mulhi_epu16` -/
def mulhi (x y : UInt16) : UInt16 := ((x.toUInt32 * y.toUInt32) >>> 16).toUInt16

/-- The indices of a lane whose octets the shuffle has ordered `b2, b1, b0, 0`.  The masks and
factors are those of a lane `b1, b0, b2, b1`. -/
def Avx2.indices (b0 b1 b2 : UInt8) : Bytes :=
  let low := b2.toUInt16 ||| (b1.toUInt16 <<< 8)
  let high := b0.toUInt16
  let indicesLow := mulhi (low &&& 0xfc00) 0x0040 ||| (low &&& 0x03f0) * 0x0010
  let indicesHigh := mulhi (high &&& 0x0fc0) 0x0400 ||| (high &&& 0x003f) * 0x0100
  [indicesLow.toUInt8, (indicesLow >>> 8).toUInt8, indicesHigh.toUInt8,
    (indicesHigh >>> 8).toUInt8]

/-- The load of the upper half of a block reaches four octets past it; the shuffle drops
them. -/
def Avx2.encodeLane (alphabet : Alphabet) : Bytes → Bytes
  | [b0, b1, b2] =>
    (Avx2.indices b0 b1 b2).map
      (shiftedChar (fun x y => decide (y.toInt8 < x.toInt8)) alphabet.isUrl)
  | _ => []

/-- The mask `0x3f` is in every octet of the lane, so that `c2` and `c1` keep more than their
low sextet. -/
def Simd128.indices (b0 b1 b2 : UInt8) : Bytes :=
  let lanes := b2.toUInt32 ||| (b1.toUInt32 <<< 8) ||| (b0.toUInt32 <<< 16)
  let c3 := lanes &&& 0x3f3f3f3f
  let c2 := (lanes >>> 6) &&& 0x3f3f3f3f
  let c1 := (lanes >>> 12) &&& 0x3f3f3f3f
  let c0 := lanes >>> 18
  let bytes := c0 ||| ((c1 <<< 8) ||| ((c2 <<< 16) ||| (c3 <<< 24)))
  [bytes.toUInt8, (bytes >>> 8).toUInt8, (bytes >>> 16).toUInt8, (bytes >>> 24).toUInt8]

def Simd128.encodeLane (alphabet : Alphabet) : Bytes → Bytes
  | [b0, b1, b2] =>
    (Simd128.indices b0 b1 b2).map (shiftedChar (fun x y => decide (y < x)) alphabet.isUrl)
  | _ => []

/-- `out_len` of the octets behind the last block. -/
def encodedRestLength (alphabet : Alphabet) (len : Nat) : Nat :=
  len / 3 * 4 +
    match len % 3 with
    | 0 => 0
    | 1 => if alphabet.isPadded then 4 else 2
    | _ => if alphabet.isPadded then 4 else 3

/-- `while len >= width` over the lanes of a block, then the scalar encoder on the rest. -/
def encodeVector (width : Nat) (lane : Alphabet → Bytes → Bytes) (T : Target)
    (output data : Bytes) (alphabet : Alphabet) : Except EncodeError Unit × Bytes :=
  let rounds := data.length / width
  let stored := mapGroups width (mapGroups 3 (lane alphabet) (width / 3)) rounds data
  let rest := data.drop (width * rounds)
  let output := output.drop stored.length
  if rest.length > 0 then
    let outLen := encodedRestLength alphabet rest.length
    let (result, text) := encodeIntoConstantTime T (output.take outLen) rest alphabet
    (result, stored ++ text ++ output.drop outLen)
  else (.ok (), stored ++ output)

/-- A branch of `encode_into`: from `width` octets on the kernel. -/
def encodeFrom (width : Nat) (lane : Alphabet → Bytes → Bytes) (T : Target)
    (output data : Bytes) (alphabet : Alphabet) : Except EncodeError Unit × Bytes :=
  if data.length ≥ width then
    match checkEncodeOutputLength T output.length data.length alphabet with
    | .error error => (.error error, output)
    | .ok _ => encodeVector width lane T output data alphabet
  else encodeIntoConstantTime T output data alphabet

def encodeInto (unit : VectorUnit) (T : Target) (output data : Bytes) (alphabet : Alphabet) :
    Except EncodeError Unit × Bytes :=
  match unit with
  | .neon => encodeFrom 48 Neon.encodeLane T output data alphabet
  | .avx2 => encodeFrom 24 Avx2.encodeLane T output data alphabet
  | .simd128 => encodeFrom 12 Simd128.encodeLane T output data alphabet
  | .scalar => encodeIntoConstantTime T output data alphabet

/-- `none` is the panic of `expect` and `unwrap`. -/
def encode (unit : VectorUnit) (T : Target) (data : Bytes) (alphabet : Alphabet) :
    Option Bytes := do
  let len ← encodedLength T data.length alphabet.isPadded
  match encodeInto unit T (List.replicate len 0) data alphabet with
  | (.ok _, output) => some output
  | (.error _, _) => none

/-! ## Decoding -/

/-- The octets of a group of sextets. -/
def packed (v0 v1 v2 v3 : UInt8) : Bytes :=
  [(v0 <<< 2) ||| (v1 >>> 4), (v1 <<< 4) ||| (v2 >>> 2), (v2 <<< 6) ||| v3]

/-- `lookup_byte_blend`: the shift that makes a sextet of the character, and an error lane. -/
def Neon.lookupByteBlend (input : UInt8) (url : Bool) : UInt8 × UInt8 :=
  let geAUpper := laneMask (decide (64 < input))
  let leZUpper := laneMask (decide (input < 91))
  let shAzUpper := (geAUpper &&& leZUpper) &&& 191
  let mAz := laneMask (decide (96 < input)) &&& laneMask (decide (input < 123))
  let shAz := mAz &&& 185
  let m09 := laneMask (decide (47 < input)) &&& laneMask (decide (input < 58))
  let s := bitSelect mAz shAz shAzUpper ||| (m09 &&& 4)
  let s := bitSelect (cmpeq input 43) 19 s
  let s := bitSelect (cmpeq input 47) 16 s
  let s := if url then bitSelect (cmpeq input 95) 224 (bitSelect (cmpeq input 45) 17 s) else s
  (s, cmpeq s 0)

def Neon.decodeLane (alphabet : Alphabet) : Bytes → Option Bytes
  | [c0, c1, c2, c3] =>
    let (sa, ea) := Neon.lookupByteBlend c0 alphabet.isUrl
    let (sb, eb) := Neon.lookupByteBlend c1 alphabet.isUrl
    let (sc, ec) := Neon.lookupByteBlend c2 alphabet.isUrl
    let (sd, ed) := Neon.lookupByteBlend c3 alphabet.isUrl
    if (ea ||| eb) ||| (ec ||| ed) ≠ 0 then none
    else some (packed (c0 + sa) (c1 + sb) (c2 + sc) (c3 + sd))
  | _ => none

def Avx2.shift (c : UInt8) (url : Bool) : UInt8 :=
  let mAZ := cmpgt c 64 &&& cmpgt 91 c
  let shAZ := mAZ &&& 191
  let maz := cmpgt c 96 &&& cmpgt 123 c
  let shaz := maz &&& 185
  let m09 := cmpgt c 47 &&& cmpgt 58 c
  let shift := blendv shAZ shaz maz ||| (m09 &&& 4)
  let shift := blendv shift 19 (cmpeq c 43)
  let shift := blendv shift 16 (cmpeq c 47)
  if url then blendv (blendv shift 17 (cmpeq c 45)) 224 (cmpeq c 95) else shift

/-- `maddubs` and `madd` make one number of four sextets, whose octets the last shuffle takes
from the top. -/
def Avx2.packed (v0 v1 v2 v3 : UInt8) : Bytes :=
  let merged0 := v0.toUInt16 * 0x40 + v1.toUInt16 * 0x01
  let merged1 := v2.toUInt16 * 0x40 + v3.toUInt16 * 0x01
  let number := merged0.toUInt32 * 0x1000 + merged1.toUInt32 * 0x0001
  [(number >>> 16).toUInt8, (number >>> 8).toUInt8, number.toUInt8]

def Avx2.decodeLane (alphabet : Alphabet) : Bytes → Option Bytes
  | [c0, c1, c2, c3] =>
    let s0 := Avx2.shift c0 alphabet.isUrl
    let s1 := Avx2.shift c1 alphabet.isUrl
    let s2 := Avx2.shift c2 alphabet.isUrl
    let s3 := Avx2.shift c3 alphabet.isUrl
    if s0 = 0 ∨ s1 = 0 ∨ s2 = 0 ∨ s3 = 0 then none
    else some (Avx2.packed (c0 + s0) (c1 + s1) (c2 + s2) (c3 + s3))
  | _ => none

def Simd128.classifySextet (c : UInt8) (url : Bool) : UInt8 :=
  let mAZ := laneMask (decide (65 ≤ c)) &&& laneMask (decide (c ≤ 90))
  let shAZ := mAZ &&& 191
  let maz := laneMask (decide (97 ≤ c)) &&& laneMask (decide (c ≤ 122))
  let shaz := maz &&& 185
  let m09 := laneMask (decide (48 ≤ c)) &&& laneMask (decide (c ≤ 57))
  let s := bitSelect maz shaz shAZ ||| (m09 &&& 4)
  let s := bitSelect (cmpeq c 43) 19 s
  let s := bitSelect (cmpeq c 47) 16 s
  let s := if url then bitSelect (cmpeq c 95) 224 (bitSelect (cmpeq c 45) 17 s) else s
  c + s

/-- Only the first sextet of a group is looked at for an error. -/
def Simd128.decodeLane (alphabet : Alphabet) : Bytes → Option Bytes
  | [c0, c1, c2, c3] =>
    let s0 := Simd128.classifySextet c0 alphabet.isUrl
    let s1 := Simd128.classifySextet c1 alphabet.isUrl
    let s2 := Simd128.classifySextet c2 alphabet.isUrl
    let s3 := Simd128.classifySextet c3 alphabet.isUrl
    if s0 > 63 then none else some (Base64.packed s0 s1 s2 s3)
  | _ => none

def decodedRestLength (len : Nat) : Nat :=
  len / 4 * 3 +
    match len % 4 with
    | 2 => 1
    | 3 => 2
    | _ => 0

/-- `while len >= width` over the lanes of a block, then the scalar decoder on the rest. -/
def decodeVector (width : Nat) (lane : Alphabet → Bytes → Option Bytes) (T : Target)
    (output content : Bytes) (alphabet : Alphabet) : Except DecodeError Unit × Bytes :=
  match vectorLoop width (inGroups 4 (lane alphabet) (width / 4)) (content.length / width)
      content with
  | (stored, none) => (.error .invalidInput, stored ++ output.drop stored.length)
  | (stored, some rest) =>
    let output := output.drop stored.length
    if rest.length > 0 then
      let outLen := decodedRestLength rest.length
      match decodeIntoConstantTime T (output.take outLen) rest alphabet with
      | (.error error, octets) => (.error error, stored ++ octets ++ output.drop outLen)
      | (.ok _, octets) => (.ok (), stored ++ octets ++ output.drop outLen)
    else (.ok (), stored ++ output)

/-- A branch of `decode_into`: from `width` characters of content on the kernel. -/
def decodeFrom (width : Nat) (lane : Alphabet → Bytes → Option Bytes) (T : Target)
    (output encodedData : Bytes) (contentLen computedOutput : Nat) (alphabet : Alphabet) :
    Except DecodeError Nat × Bytes :=
  if contentLen ≥ width then
    match decodeVector width lane T output (encodedData.take contentLen) alphabet with
    | (.error error, output) => (.error error, output)
    | (.ok _, output) => (.ok computedOutput, output)
  else decodeIntoConstantTime T output encodedData alphabet

def decodeInto (unit : VectorUnit) (T : Target) (output encodedData : Bytes)
    (alphabet : Alphabet) : Except DecodeError Nat × Bytes :=
  match stripPaddingInfo encodedData alphabet.isPadded with
  | .error error => (.error error, output)
  | .ok (contentLen, _) =>
    match decodedLength T contentLen with
    | .error error => (.error error, output)
    | .ok computedOutput =>
      if output.length < computedOutput then
        (.error .invalidOutputLength, output)
      else
        match unit with
        | .neon =>
          decodeFrom 32 Neon.decodeLane T output encodedData contentLen computedOutput
            alphabet
        | .avx2 =>
          decodeFrom 32 Avx2.decodeLane T output encodedData contentLen computedOutput
            alphabet
        | .simd128 =>
          decodeFrom 16 Simd128.decodeLane T output encodedData contentLen computedOutput
            alphabet
        | .scalar => decodeIntoConstantTime T output encodedData alphabet

def decode (unit : VectorUnit) (T : Target) (data : Bytes) (alphabet : Alphabet) :
    Except DecodeError Bytes := do
  let (contentLen, _) ← stripPaddingInfo data alphabet.isPadded
  let outputLen ← decodedLength T contentLen
  match decodeInto unit T (List.replicate outputLen 0) data alphabet with
  | (.ok _, output) => .ok output
  | (.error error, _) => .error error

end Stdx.Base64
