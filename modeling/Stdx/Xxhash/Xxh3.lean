import Stdx.Xxhash.Xxh3Kernels

/-!
# XXH3 in one shot

Inputs of at most 240 octets are hashed by the short paths, with the seed and a secret.
Longer ones go through the kernels, stripe by stripe and with a last stripe that may
overlap.  `none` is a read out of range or a subtraction below zero.
-/

namespace Stdx.Xxhash.Xxh3

open Stdx.Foundation

local instance neZero_accs : NeZero 8 := ⟨by decide⟩

def PRIME32_2 : BitVec 64 := 0x85EBCA77
def PRIME32_3 : BitVec 64 := 0xC2B2AE3D
def PRIME64_1 : BitVec 64 := 0x9E3779B185EBCA87
def PRIME64_2 : BitVec 64 := 0xC2B2AE3D27D4EB4F
def PRIME64_3 : BitVec 64 := 0x165667B19E3779F9
def PRIME64_4 : BitVec 64 := 0x85EBCA77C2B2AE63
def PRIME64_5 : BitVec 64 := 0x27D4EB2F165667C5

def ACC_NB : Nat := 8
def SECRET_MERGEACCS_START : Nat := 11
def SECRET_LASTACC_START : Nat := 7
def MID_SIZE_MAX : Nat := 240
def SECRET_SIZE_MIN : Nat := 136
def DEFAULT_SECRET_SIZE : Nat := 192
def STRIPES_PER_BLOCK : Nat := (DEFAULT_SECRET_SIZE - STRIPE_LEN) / SECRET_CONSUME_RATE
def LAST_STRIPE_SECRET_OFFSET : Nat := DEFAULT_SECRET_SIZE - STRIPE_LEN - SECRET_LASTACC_START

def DEFAULT_SECRET : FixedBytes 192 where
  octets := [
    0xb8, 0xfe, 0x6c, 0x39, 0x23, 0xa4, 0x4b, 0xbe, 0x7c, 0x01, 0x81, 0x2c, 0xf7, 0x21, 0xad, 0x1c,
    0xde, 0xd4, 0x6d, 0xe9, 0x83, 0x90, 0x97, 0xdb, 0x72, 0x40, 0xa4, 0xa4, 0xb7, 0xb3, 0x67, 0x1f,
    0xcb, 0x79, 0xe6, 0x4e, 0xcc, 0xc0, 0xe5, 0x78, 0x82, 0x5a, 0xd0, 0x7d, 0xcc, 0xff, 0x72, 0x21,
    0xb8, 0x08, 0x46, 0x74, 0xf7, 0x43, 0x24, 0x8e, 0xe0, 0x35, 0x90, 0xe6, 0x81, 0x3a, 0x26, 0x4c,
    0x3c, 0x28, 0x52, 0xbb, 0x91, 0xc3, 0x00, 0xcb, 0x88, 0xd0, 0x65, 0x8b, 0x1b, 0x53, 0x2e, 0xa3,
    0x71, 0x64, 0x48, 0x97, 0xa2, 0x0d, 0xf9, 0x4e, 0x38, 0x19, 0xef, 0x46, 0xa9, 0xde, 0xac, 0xd8,
    0xa8, 0xfa, 0x76, 0x3f, 0xe3, 0x9c, 0x34, 0x3f, 0xf9, 0xdc, 0xbb, 0xc7, 0xc7, 0x0b, 0x4f, 0x1d,
    0x8a, 0x51, 0xe0, 0x4b, 0xcd, 0xb4, 0x59, 0x31, 0xc8, 0x9f, 0x7e, 0xc9, 0xd9, 0x78, 0x73, 0x64,
    0xea, 0xc5, 0xac, 0x83, 0x34, 0xd3, 0xeb, 0xc3, 0xc5, 0x81, 0xa0, 0xff, 0xfa, 0x13, 0x63, 0xeb,
    0x17, 0x0d, 0xdd, 0x51, 0xb7, 0xf0, 0xda, 0x49, 0xd3, 0x16, 0x55, 0x26, 0x29, 0xd4, 0x68, 0x9e,
    0x2b, 0x16, 0xbe, 0x58, 0x7d, 0x47, 0xa1, 0xfc, 0x8f, 0xf8, 0xb8, 0xd1, 0x7a, 0xd0, 0x31, 0xce,
    0x45, 0xcb, 0x3a, 0x8f, 0x95, 0x16, 0x04, 0x28, 0xaf, 0xd7, 0xfb, 0xca, 0xbb, 0x4b, 0x40, 0x7e]
  length_eq := rfl

def INITIAL_ACC : Acc :=
  ![PRIME32_3, PRIME64_1, PRIME64_2, PRIME64_3, PRIME64_4, PRIME32_2, PRIME64_5, PRIME32_1]

def subUsize (a b : Nat) : Option Nat := if b ≤ a then some (a - b) else none

theorem subUsize_eq {a b : Nat} (h : b ≤ a) : subUsize a b = some (a - b) := if_pos h

def avalanche (h : BitVec 64) : BitVec 64 :=
  xorshift64 (xorshift64 h 37 * 0x165667919E3779F9) 32

def xxh64Avalanche (h : BitVec 64) : BitVec 64 :=
  let h := (h ^^^ (h >>> 33)) * PRIME64_2
  let h := (h ^^^ (h >>> 29)) * 0x165667B19E3779F9
  h ^^^ (h >>> 32)

def strongAvalanche (value len : BitVec 64) : BitVec 64 :=
  let value := value ^^^ (value.rotateLeft 49 ^^^ value.rotateLeft 24)
  let value := value * 0x9FB21C651E98DF25
  let value := value ^^^ ((value >>> 35) + len)
  let value := value * 0x9FB21C651E98DF25
  xorshift64 value 28

def swapBytes32 (x : BitVec 32) : BitVec 32 :=
  BitVec.ofNat 32 (leValue (leOctets 4 x.toNat).reverse)

def swapBytes64 (x : BitVec 64) : BitVec 64 :=
  BitVec.ofNat 64 (leValue (leOctets 8 x.toNat).reverse)

def mul128 (l r : BitVec 64) : BitVec 128 := l.setWidth 128 * r.setWidth 128

def low64 (x : BitVec 128) : BitVec 64 := x.setWidth 64

def high64 (x : BitVec 128) : BitVec 64 := (x >>> 64).setWidth 64

/-- `(lo as u128) | ((hi as u128) << 64)` -/
def join128 (lo hi : BitVec 64) : BitVec 128 := lo.setWidth 128 ||| (hi.setWidth 128 <<< 64)

def mul128Fold64 (l r : BitVec 64) : BitVec 64 :=
  let p := mul128 l r
  low64 p ^^^ high64 p

def mix16b (input : Bytes) (inputOffset : Nat) (secret : Bytes) (secretOffset : Nat)
    (seed : BitVec 64) : Option (BitVec 64) := do
  let inputLo ← read64le input inputOffset
  let inputHi ← read64le input (inputOffset + 8)
  let secretLo ← read64le secret secretOffset
  let secretHi ← read64le secret (secretOffset + 8)
  some (mul128Fold64 (inputLo ^^^ (secretLo + seed)) (inputHi ^^^ (secretHi - seed)))

def mixTwoAccs (acc : Acc) (pair : Fin 4) (secret : Bytes) (secOff : Nat) :
    Option (BitVec 64) := do
  let secretLo ← read64le secret secOff
  let secretHi ← read64le secret (secOff + 8)
  some (mul128Fold64 (acc (Fin.ofNat 8 (pair.val * 2)) ^^^ secretLo)
    (acc (Fin.ofNat 8 (pair.val * 2 + 1)) ^^^ secretHi))

def mergeAccs (acc : Acc) (secret : Bytes) (startOffset : Nat) (result : BitVec 64) :
    Option (BitVec 64) := do
  let result ← (List.finRange 4).foldlM (fun result i => do
    let mixed ← mixTwoAccs acc i secret (startOffset + i.val * 16)
    some (result + mixed)) result
  some (avalanche result)

/-! ## Short inputs, 64 bits -/

def xxh3_64_1to3 (input : Bytes) (seed : BitVec 64) (secret : Bytes) : Option (BitVec 64) := do
  let len := input.length
  let last ← subUsize len 1
  let c1 ← input[0]?
  let c2 ← input[len / 2]?
  let c3 ← input[last]?
  let combined := (c1.toBitVec.setWidth 32 <<< 16) ||| (c2.toBitVec.setWidth 32 <<< 24) |||
    c3.toBitVec.setWidth 32 ||| (BitVec.ofNat 32 len <<< 8)
  let secret0 ← read32le secret 0
  let secret4 ← read32le secret 4
  let flip := (secret0 ^^^ secret4).setWidth 64 + seed
  some (xxh64Avalanche (combined.setWidth 64 ^^^ flip))

def xxh3_64_4to8 (input : Bytes) (seed : BitVec 64) (secret : Bytes) : Option (BitVec 64) := do
  let seed := seed ^^^ ((swapBytes32 (lowHalf seed)).setWidth 64 <<< 32)
  let len := input.length
  let last ← subUsize len 4
  let input1 ← read32le input 0
  let input2 ← read32le input last
  let secret8 ← read64le secret 8
  let secret16 ← read64le secret 16
  let flip := (secret8 ^^^ secret16) - seed
  let input64 := input2.setWidth 64 + (input1.setWidth 64 <<< 32)
  some (strongAvalanche (input64 ^^^ flip) (BitVec.ofNat 64 len))

def xxh3_64_9to16 (input : Bytes) (seed : BitVec 64) (secret : Bytes) : Option (BitVec 64) := do
  let len := input.length
  let secret24 ← read64le secret 24
  let secret32 ← read64le secret 32
  let secret40 ← read64le secret 40
  let secret48 ← read64le secret 48
  let flip1 := (secret24 ^^^ secret32) + seed
  let flip2 := (secret40 ^^^ secret48) - seed
  let last ← subUsize len 8
  let inputLo := (← read64le input 0) ^^^ flip1
  let inputHi := (← read64le input last) ^^^ flip2
  some (avalanche (BitVec.ofNat 64 len + swapBytes64 inputLo + inputHi +
    mul128Fold64 inputLo inputHi))

def xxh3_64_0to16 (input : Bytes) (seed : BitVec 64) (secret : Bytes) : Option (BitVec 64) :=
  if 8 < input.length then xxh3_64_9to16 input seed secret
  else if 4 ≤ input.length then xxh3_64_4to8 input seed secret
  else if input ≠ [] then xxh3_64_1to3 input seed secret
  else do
    let secret56 ← read64le secret 56
    let secret64 ← read64le secret 64
    some (xxh64Avalanche (seed ^^^ secret56 ^^^ secret64))

/-- The two words that one step of the path takes, from both ends of the input. -/
def mixPair (acc : BitVec 64) (input : Bytes) (front back : Nat) (secret : Bytes)
    (secretOffset : Nat) (seed : BitVec 64) : Option (BitVec 64) := do
  let last ← subUsize input.length back
  let mixedFront ← mix16b input front secret secretOffset seed
  let mixedBack ← mix16b input last secret (secretOffset + 16) seed
  some (acc + mixedFront + mixedBack)

def xxh3_64_7to128 (input : Bytes) (seed : BitVec 64) (secret : Bytes) :
    Option (BitVec 64) := do
  let len := input.length
  let acc := BitVec.ofNat 64 len * PRIME64_1
  let acc ← if 96 < len then mixPair acc input 48 64 secret 96 seed else some acc
  let acc ← if 64 < len then mixPair acc input 32 48 secret 64 seed else some acc
  let acc ← if 32 < len then mixPair acc input 16 32 secret 32 seed else some acc
  let acc ← mixPair acc input 0 16 secret 0 seed
  some (avalanche acc)

def xxh3_64_129to240 (input : Bytes) (seed : BitVec 64) (secret : Bytes) :
    Option (BitVec 64) := do
  let len := input.length
  let acc := BitVec.ofNat 64 len * PRIME64_1
  let nbRounds := len / 16
  let acc ← (List.range 8).foldlM (fun acc i => do
    let mixed ← mix16b input (i * 16) secret (i * 16) seed
    some (acc + mixed)) acc
  let acc := avalanche acc
  let acc ← (List.range (nbRounds - 8)).foldlM (fun acc i => do
    let mixed ← mix16b input ((8 + i) * 16) secret (i * 16 + 3) seed
    some (acc + mixed)) acc
  let last ← subUsize len 16
  let mixed ← mix16b input last secret (SECRET_SIZE_MIN - 17) seed
  some (avalanche (acc + mixed))

def xxh3_64_short (input : Bytes) (seed : BitVec 64) (secret : Bytes) : Option (BitVec 64) :=
  if input.length ≤ 16 then xxh3_64_0to16 input seed secret
  else if input.length ≤ 128 then xxh3_64_7to128 input seed secret
  else xxh3_64_129to240 input seed secret

/-! ## Short inputs, 128 bits -/

abbrev Halves := BitVec 64 × BitVec 64

def mix32b (acc : Halves) (input : Bytes) (input1Off input2Off : Nat) (secret : Bytes)
    (secretOff : Nat) (seed : BitVec 64) : Option Halves := do
  let (lo, hi) := acc
  let lo := lo + (← mix16b input input1Off secret secretOff seed)
  let lo := lo ^^^ ((← read64le input input2Off) + (← read64le input (input2Off + 8)))
  let hi := hi + (← mix16b input input2Off secret (secretOff + 16) seed)
  let hi := hi ^^^ ((← read64le input input1Off) + (← read64le input (input1Off + 8)))
  some (lo, hi)

def xxh3_128_1to3 (input : Bytes) (seed : BitVec 64) (secret : Bytes) :
    Option (BitVec 128) := do
  let len := input.length
  let last ← subUsize len 1
  let c1 ← input[0]?
  let c2 ← input[len / 2]?
  let c3 ← input[last]?
  let combinedl := (c1.toBitVec.setWidth 32 <<< 16) ||| (c2.toBitVec.setWidth 32 <<< 24) |||
    c3.toBitVec.setWidth 32 ||| (BitVec.ofNat 32 len <<< 8)
  let combinedh := (swapBytes32 combinedl).rotateLeft 13
  let bitflipl := ((← read32le secret 0) ^^^ (← read32le secret 4)).setWidth 64 + seed
  let bitfliph := ((← read32le secret 8) ^^^ (← read32le secret 12)).setWidth 64 - seed
  let keyedLo := combinedl.setWidth 64 ^^^ bitflipl
  let keyedHi := combinedh.setWidth 64 ^^^ bitfliph
  some (join128 (xxh64Avalanche keyedLo) (xxh64Avalanche keyedHi))

def xxh3_128_9to16 (input : Bytes) (seed : BitVec 64) (secret : Bytes) :
    Option (BitVec 128) := do
  let len := input.length
  let bitflipl := ((← read64le secret 32) ^^^ (← read64le secret 40)) - seed
  let bitfliph := ((← read64le secret 48) ^^^ (← read64le secret 56)) + seed
  let last ← subUsize len 8
  let inputLo ← read64le input 0
  let inputHi ← read64le input last
  let m128Full := mul128 (inputLo ^^^ inputHi ^^^ bitflipl) PRIME64_1
  let m128Lo := low64 m128Full + (BitVec.ofNat 64 (len - 1) <<< 54)
  let inputHi := inputHi ^^^ bitfliph
  let m128Hi := high64 m128Full + inputHi + mult32To64 (lowHalf inputHi) 0x85EBCA76
  let m128Lo := m128Lo ^^^ swapBytes64 m128Hi
  let h128Full := mul128 m128Lo PRIME64_2
  let h128Lo := low64 h128Full
  let h128Hi := high64 h128Full + m128Hi * PRIME64_2
  some (join128 (avalanche h128Lo) (avalanche h128Hi))

def xxh3_128_4to8 (input : Bytes) (seed : BitVec 64) (secret : Bytes) :
    Option (BitVec 128) := do
  let seed := seed ^^^ ((swapBytes32 (lowHalf seed)).setWidth 64 <<< 32)
  let len := input.length
  let last ← subUsize len 4
  let inputLo ← read32le input 0
  let inputHi ← read32le input last
  let input64 := inputLo.setWidth 64 + (inputHi.setWidth 64 <<< 32)
  let bitflip := ((← read64le secret 16) ^^^ (← read64le secret 24)) + seed
  let keyed := input64 ^^^ bitflip
  let m128 := mul128 keyed (PRIME64_1 + (BitVec.ofNat 64 len <<< 2))
  let m128Lo := low64 m128
  let m128Hi := high64 m128 + (m128Lo <<< 1)
  let m128Lo := m128Lo ^^^ (m128Hi >>> 3)
  let m128Lo := xorshift64 m128Lo 35
  let m128Lo := m128Lo * 0x9FB21C651E98DF25
  let m128Lo := xorshift64 m128Lo 28
  some (join128 m128Lo (avalanche m128Hi))

def xxh3_128_0to16 (input : Bytes) (seed : BitVec 64) (secret : Bytes) : Option (BitVec 128) :=
  if 8 < input.length then xxh3_128_9to16 input seed secret
  else if 4 ≤ input.length then xxh3_128_4to8 input seed secret
  else if input ≠ [] then xxh3_128_1to3 input seed secret
  else do
    let flipLo := (← read64le secret 64) ^^^ (← read64le secret 72)
    let flipHi := (← read64le secret 80) ^^^ (← read64le secret 88)
    some (join128 (xxh64Avalanche (seed ^^^ flipLo)) (xxh64Avalanche (seed ^^^ flipHi)))

def finish128 (len : Nat) (seed : BitVec 64) (acc : Halves) : BitVec 128 :=
  let (lo, hi) := acc
  join128 (avalanche (lo + hi))
    (0 - avalanche (lo * PRIME64_1 + hi * 0x85EBCA77C2B2AE63 +
      (BitVec.ofNat 64 len - seed) * PRIME64_2))

def mix32bPair (acc : Halves) (input : Bytes) (front back : Nat) (secret : Bytes)
    (secretOff : Nat) (seed : BitVec 64) : Option Halves := do
  let last ← subUsize input.length back
  mix32b acc input front last secret secretOff seed

def xxh3_128_7to128 (input : Bytes) (seed : BitVec 64) (secret : Bytes) :
    Option (BitVec 128) := do
  let len := input.length
  let acc := (BitVec.ofNat 64 len * PRIME64_1, 0)
  let acc ← if 96 < len then mix32bPair acc input 48 64 secret 96 seed else some acc
  let acc ← if 64 < len then mix32bPair acc input 32 48 secret 64 seed else some acc
  let acc ← if 32 < len then mix32bPair acc input 16 32 secret 32 seed else some acc
  let acc ← mix32bPair acc input 0 16 secret 0 seed
  some (finish128 len seed acc)

def xxh3_128_129to240 (input : Bytes) (seed : BitVec 64) (secret : Bytes) :
    Option (BitVec 128) := do
  let len := input.length
  let nbRounds := len / 32
  let acc := (BitVec.ofNat 64 len * PRIME64_1, 0)
  let (lo, hi) ← (List.range 4).foldlM (fun acc i =>
    mix32b acc input (32 * i) (32 * i + 16) secret (32 * i) seed) acc
  let acc := (avalanche lo, avalanche hi)
  let acc ← (List.range (nbRounds - 4)).foldlM (fun acc i =>
    mix32b acc input (32 * (4 + i)) (32 * (4 + i) + 16) secret (3 + 32 * i) seed) acc
  let last16 ← subUsize len 16
  let last32 ← subUsize len 32
  let acc ← mix32b acc input last16 last32 secret (SECRET_SIZE_MIN - 17 - 16) (0 - seed)
  some (finish128 len seed acc)

def xxh3_128_short (input : Bytes) (seed : BitVec 64) (secret : Bytes) : Option (BitVec 128) :=
  if input.length ≤ 16 then xxh3_128_0to16 input seed secret
  else if input.length ≤ 128 then xxh3_128_7to128 input seed secret
  else xxh3_128_129to240 input seed secret

/-! ## Long inputs -/

def hashBlocks (kernel : Kernel) (acc : Acc) (input secret : Bytes) (nbBlocks : Nat) :
    Option Acc := do
  let secretLast ← subUsize secret.length STRIPE_LEN
  (List.range nbBlocks).foldlM (fun acc i => do
    let acc ← accumulateLoop kernel acc input (i * (STRIPE_LEN * STRIPES_PER_BLOCK)) secret 0
      STRIPES_PER_BLOCK
    scrambleAcc kernel acc secret secretLast) acc

def hashLongInternalLoop (kernel : Kernel) (lastSecretOff : Nat) (acc : Acc)
    (input secret : Bytes) : Option Acc := do
  let blockLen := STRIPE_LEN * STRIPES_PER_BLOCK
  let last ← subUsize input.length 1
  let nbBlocks := last / blockLen
  let acc ← hashBlocks kernel acc input secret nbBlocks
  let nbStripes := (last - blockLen * nbBlocks) / STRIPE_LEN
  let acc ← accumulateLoop kernel acc input (nbBlocks * blockLen) secret 0 nbStripes
  let lastStripeStart ← subUsize input.length STRIPE_LEN
  accumulate512 kernel acc input lastStripeStart secret lastSecretOff

def hashLongScalar (acc : Acc) (input secret : Bytes) : Option Acc := do
  let lastSecretOff ← subUsize secret.length (STRIPE_LEN + SECRET_LASTACC_START)
  hashLongInternalLoop .scalar lastSecretOff acc input secret

def hashLongDispatch (kernel : Kernel) (acc : Acc) (input secret : Bytes) : Option Acc :=
  hashLongInternalLoop kernel LAST_STRIPE_SECRET_OFFSET acc input secret

def mergeLong64 (acc : Acc) (secret : Bytes) (totalLen : BitVec 64) : Option (BitVec 64) :=
  mergeAccs acc secret SECRET_MERGEACCS_START (totalLen * PRIME64_1)

def mergeLong128 (acc : Acc) (secret : Bytes) (totalLen : BitVec 64) : Option (BitVec 128) := do
  let lo ← mergeAccs acc secret SECRET_MERGEACCS_START (totalLen * PRIME64_1)
  let start ← subUsize secret.length (ACC_NB * 8 + SECRET_MERGEACCS_START)
  let hi ← mergeAccs acc secret start (~~~(totalLen * PRIME64_2))
  some (join128 lo hi)

structure Output where
  Value : Type
  short : Bytes → BitVec 64 → Bytes → Option Value
  merge : Acc → Bytes → BitVec 64 → Option Value

def output64 : Output := ⟨BitVec 64, xxh3_64_short, mergeLong64⟩

def output128 : Output := ⟨BitVec 128, xxh3_128_short, mergeLong128⟩

section

variable (O : Output)

def longScalar (input secret : Bytes) : Option O.Value := do
  let acc ← hashLongScalar INITIAL_ACC input secret
  O.merge acc secret (BitVec.ofNat 64 input.length)

def longDispatch (kernel : Kernel) (input secret : Bytes) : Option O.Value := do
  let acc ← hashLongDispatch kernel INITIAL_ACC input secret
  O.merge acc secret (BitVec.ofNat 64 input.length)

/-- The `const fn`. -/
def constHash (data : Bytes) : Option O.Value :=
  if data.length ≤ MID_SIZE_MAX then O.short data 0 DEFAULT_SECRET.octets
  else longScalar O data DEFAULT_SECRET.octets

/-- `Checksum::checksum` -/
def checksum (kernel : Kernel) (data : Bytes) : Option O.Value :=
  if data.length ≤ MID_SIZE_MAX then O.short data 0 DEFAULT_SECRET.octets
  else longDispatch O kernel data DEFAULT_SECRET.octets

end

def xxh3_64 (data : Bytes) : Option (BitVec 64) := constHash output64 data

def xxh3_128 (data : Bytes) : Option (BitVec 128) := constHash output128 data

end Stdx.Xxhash.Xxh3
