import Mathlib
import Stdx.Foundation.Interleave
import Stdx.Foundation.LittleEndian
import Stdx.Foundation.OctetXor

/-!
# The two Ascon cores

`crypto/src/ascon/ascon_64b.rs` holds the state as five 64-bit words and is compiled on
64-bit targets, `ascon_32b.rs` holds each word as its even and its odd bits.  `checks`
says whether debug assertions are compiled in; `none` is a panic.
-/

namespace Stdx.Ascon

open Stdx.Foundation

def RC4 : BitVec 8 := 0xf0
def RC5 : BitVec 8 := 0xe1
def RC6 : BitVec 8 := 0xd2
def RC7 : BitVec 8 := 0xc3
def RC8 : BitVec 8 := 0xb4
def RC9 : BitVec 8 := 0xa5
def RC10 : BitVec 8 := 0x96
def RC11 : BitVec 8 := 0x87
def RC12 : BitVec 8 := 0x78
def RC13 : BitVec 8 := 0x69
def RC14 : BitVec 8 := 0x5a
def RC15 : BitVec 8 := 0x4b

def debugAssert (checks : Bool) (condition : Prop) [Decidable condition] : Option Unit :=
  if checks ∧ ¬condition then none else some ()

/-- `u64::from_le_bytes` -/
def fromLeBytes (bytes : Bytes) : BitVec 64 := BitVec.ofNat 64 (leValue bytes)

def toLeBytes (word : BitVec 64) : Bytes := leOctets 8 word.toNat

@[simp] theorem toLeBytes_length (word : BitVec 64) : (toLeBytes word).length = 8 :=
  leOctets_length 8 word.toNat

def blockBytes (first second : BitVec 64) : FixedBytes 16 :=
  ⟨toLeBytes first ++ toLeBytes second, by simp⟩

/-- The octets in front of a zeroed array of eight; `none` if they do not fit. -/
def padded (bytes : Bytes) : Option Bytes :=
  if bytes.length ≤ 8 then some (bytes ++ List.replicate (8 - bytes.length) 0) else none

def sbox {w : Nat} (x0 x1 x2 x3 x4 : BitVec w) : Vector (BitVec w) 5 :=
  let x0 := x0 ^^^ x4
  let x4 := x4 ^^^ x3
  let x2 := x2 ^^^ x1
  let t0 := x0 ^^^ (~~~x1 &&& x2)
  let t1 := x1 ^^^ (~~~x2 &&& x3)
  let t2 := x2 ^^^ (~~~x3 &&& x4)
  let t3 := x3 ^^^ (~~~x4 &&& x0)
  let t4 := x4 ^^^ (~~~x0 &&& x1)
  #v[t0 ^^^ t4, t1 ^^^ t0, t2, t3 ^^^ t2, t4]

/-! ## 64-bit words -/

namespace Ascon64b

abbrev State := Vector (BitVec 64) 5

def initAead (key nonce : FixedBytes 16) (iv : BitVec 64) : State :=
  #v[iv, fromLeBytes (key.octets.take 8), fromLeBytes (key.octets.drop 8),
    fromLeBytes (nonce.octets.take 8), fromLeBytes (nonce.octets.drop 8)]

def initHash (iv : BitVec 64) : State := #v[iv, 0, 0, 0, 0]

def xorWord (s : State) (idx : Nat) (val : BitVec 64) : Option State :=
  if h : idx < 5 then some (s.set idx (s[idx] ^^^ val)) else none

def xorRate128Bytes (s : State) (bytes : FixedBytes 16) : State :=
  (s.set 0 (s[0] ^^^ fromLeBytes (bytes.octets.take 8))).set 1
    (s[1] ^^^ fromLeBytes (bytes.octets.drop 8))

def xorPartialRate (checks : Bool) (s : State) (bytes : Bytes) : Option State := do
  debugAssert checks (bytes.length ≤ 16 ∧ bytes ≠ [])
  if bytes.length ≥ 8 then
    if bytes.length > 8 then
      let tmp ← padded (bytes.drop 8)
      some ((s.set 1 (s[1] ^^^ fromLeBytes tmp)).set 0 (s[0] ^^^ fromLeBytes (bytes.take 8)))
    else some (s.set 0 (s[0] ^^^ fromLeBytes (bytes.take 8)))
  else
    let tmp ← padded bytes
    some (s.set 0 (s[0] ^^^ fromLeBytes tmp))

def encryptInPlaceBlock (s : State) (inOut : FixedBytes 16) : State × FixedBytes 16 :=
  let pt0 := fromLeBytes (inOut.octets.take 8)
  let pt1 := fromLeBytes (inOut.octets.drop 8)
  let s := (s.set 0 (s[0] ^^^ pt0)).set 1 (s[1] ^^^ pt1)
  (s, blockBytes s[0] s[1])

def decryptInPlaceBlock (s : State) (inOut : FixedBytes 16) : State × FixedBytes 16 :=
  let ct0 := fromLeBytes (inOut.octets.take 8)
  let ct1 := fromLeBytes (inOut.octets.drop 8)
  ((s.set 0 ct0).set 1 ct1, blockBytes (s[0] ^^^ ct0) (s[1] ^^^ ct1))

def squeezeRateU64 (s : State) : BitVec 64 := s[0]

def readRateBytes (checks : Bool) (s : State) (n : Nat) : Option Bytes := do
  debugAssert checks (n ≤ 16 ∧ n ≠ 0)
  if n ≤ 8 then some ((toLeBytes s[0]).take n)
  else if n - 8 ≤ 8 then some (toLeBytes s[0] ++ (toLeBytes s[1]).take (n - 8))
  else none

def writeRateBytes (checks : Bool) (s : State) (bytes : Bytes) : Option State := do
  debugAssert checks (bytes.length ≤ 16 ∧ bytes ≠ [])
  let n := bytes.length
  if n ≤ 8 then some (s.set 0 (fromLeBytes (bytes ++ (toLeBytes s[0]).drop n)))
  else if n - 8 ≤ 8 then
    some ((s.set 0 (fromLeBytes (bytes.take 8))).set 1
      (fromLeBytes (bytes.drop 8 ++ (toLeBytes s[1]).drop (n - 8))))
  else none

def applyDomainSep (s : State) : State := s.set 4 (s[4] ^^^ (0x8000000000000000 : BitVec 64))

def applyAeadPad (checks : Bool) (s : State) (n : Nat) : Option State := do
  debugAssert checks (n < 16)
  if n < 8 then some (s.set 0 (s[0] ^^^ ((0x01 : BitVec 64) <<< (8 * n % 64))))
  else some (s.set 1 (s[1] ^^^ ((0x01 : BitVec 64) <<< (8 * (n - 8) % 64))))

def tagBytes (s : State) : FixedBytes 16 := blockBytes s[3] s[4]

def squeezeByte (s : State) : Bytes := toLeBytes s[0]

def absorbBlock (s : State) (block : Bytes) : Option State :=
  if block.length = 8 then some (s.set 0 (s[0] ^^^ fromLeBytes block)) else none

def linear (t : Vector (BitVec 64) 5) : State :=
  let t2 := ~~~t[2]
  #v[t[0] ^^^ t[0].rotateRight 19 ^^^ t[0].rotateRight 28,
    t[1] ^^^ t[1].rotateRight 61 ^^^ t[1].rotateRight 39,
    t2 ^^^ t2.rotateRight 1 ^^^ t2.rotateRight 6,
    t[3] ^^^ t[3].rotateRight 10 ^^^ t[3].rotateRight 17,
    t[4] ^^^ t[4].rotateRight 7 ^^^ t[4].rotateRight 41]

def round (s : State) (c : BitVec 8) : State :=
  linear (sbox s[0] s[1] (s[2] ^^^ c.setWidth 64) s[3] s[4])

end Ascon64b

/-! ## Even and odd bits -/

namespace Ascon32b

/-- Word `i` is at `2 * i`, its even bits, and `2 * i + 1`, its odd bits. -/
abbrev State := Vector (BitVec 32) 10

def deinterleave16 (x : BitVec 32) : BitVec 32 :=
  let x := exchange 0x22222222 1 x
  let x := exchange 0x0c0c0c0c 2 x
  let x := exchange 0x00f000f0 4 x
  exchange 0x0000ff00 8 x

def interleave16 (x : BitVec 32) : BitVec 32 :=
  let x := exchange 0x0000ff00 8 x
  let x := exchange 0x00f000f0 4 x
  let x := exchange 0x0c0c0c0c 2 x
  exchange 0x22222222 1 x

def toBi (lo hi : BitVec 32) : BitVec 32 × BitVec 32 :=
  let t0 := deinterleave16 lo
  let t1 := deinterleave16 hi
  ((t1 <<< 16) ||| (t0 &&& (0x0000ffff : BitVec 32)),
    (t1 &&& (0xffff0000 : BitVec 32)) ||| (t0 >>> 16))

def fromBi (e o : BitVec 32) : BitVec 32 × BitVec 32 :=
  let t0 := (o <<< 16) ||| (e &&& (0x0000ffff : BitVec 32))
  let t1 := (o &&& (0xffff0000 : BitVec 32)) ||| (e >>> 16)
  (interleave16 t0, interleave16 t1)

/-- `to_bi(val as u32, (val >> 32) as u32)` -/
def splitBi (val : BitVec 64) : BitVec 32 × BitVec 32 :=
  toBi (val.setWidth 32) ((val >>> 32).setWidth 32)

/-- `(x.0 as u64) | ((x.1 as u64) << 32)` of `x = from_bi(e, o)` -/
def joinBi (e o : BitVec 32) : BitVec 64 :=
  let x := fromBi e o
  x.1.setWidth 64 ||| (x.2.setWidth 64 <<< 32)

def loadToBi (bytes : Bytes) : Option (BitVec 32 × BitVec 32) := do
  let tmp ← padded bytes
  some (splitBi (fromLeBytes tmp))

def rorPair (even odd : BitVec 32) (n : Nat) : BitVec 32 × BitVec 32 :=
  if n &&& 1 = 0 then (even.rotateRight (n >>> 1), odd.rotateRight (n >>> 1))
  else (odd.rotateRight ((n - 1) >>> 1), even.rotateRight ((n + 1) >>> 1))

def initAead (key nonce : FixedBytes 16) (iv : BitVec 64) : State :=
  let k0 := splitBi (fromLeBytes (key.octets.take 8))
  let k1 := splitBi (fromLeBytes (key.octets.drop 8))
  let n0 := splitBi (fromLeBytes (nonce.octets.take 8))
  let n1 := splitBi (fromLeBytes (nonce.octets.drop 8))
  let iv := splitBi iv
  #v[iv.1, iv.2, k0.1, k0.2, k1.1, k1.2, n0.1, n0.2, n1.1, n1.2]

def initHash (iv : BitVec 64) : State :=
  let iv := splitBi iv
  #v[iv.1, iv.2, 0, 0, 0, 0, 0, 0, 0, 0]

def xorWord (s : State) (idx : Nat) (val : BitVec 64) : Option State :=
  let x := splitBi val
  if h : idx * 2 + 1 < 10 then
    some ((s.set (idx * 2) (s[idx * 2] ^^^ x.1)).set (idx * 2 + 1) (s[idx * 2 + 1] ^^^ x.2))
  else none

def loadBlock (bytes : FixedBytes 16) : (BitVec 32 × BitVec 32) × (BitVec 32 × BitVec 32) :=
  (splitBi (fromLeBytes (bytes.octets.take 8)), splitBi (fromLeBytes (bytes.octets.drop 8)))

def xorRate128Bytes (s : State) (bytes : FixedBytes 16) : State :=
  let w := loadBlock bytes
  (((s.set 0 (s[0] ^^^ w.1.1)).set 1 (s[1] ^^^ w.1.2)).set 2 (s[2] ^^^ w.2.1)).set 3
    (s[3] ^^^ w.2.2)

def xorPartialRate (checks : Bool) (s : State) (bytes : Bytes) : Option State := do
  debugAssert checks (bytes.length ≤ 16 ∧ bytes ≠ [])
  let n := bytes.length
  if n ≥ 8 then
    let lo := splitBi (fromLeBytes (bytes.take 8))
    let s := (s.set 0 (s[0] ^^^ lo.1)).set 1 (s[1] ^^^ lo.2)
    if n > 8 then
      let hi ← loadToBi (bytes.drop 8)
      some ((s.set 2 (s[2] ^^^ hi.1)).set 3 (s[3] ^^^ hi.2))
    else some s
  else
    let x ← loadToBi bytes
    some ((s.set 0 (s[0] ^^^ x.1)).set 1 (s[1] ^^^ x.2))

def encryptInPlaceBlock (s : State) (inOut : FixedBytes 16) : State × FixedBytes 16 :=
  let pt := loadBlock inOut
  let s := (((s.set 0 (s[0] ^^^ pt.1.1)).set 1 (s[1] ^^^ pt.1.2)).set 2 (s[2] ^^^ pt.2.1)).set 3
    (s[3] ^^^ pt.2.2)
  (s, blockBytes (joinBi s[0] s[1]) (joinBi s[2] s[3]))

def decryptInPlaceBlock (s : State) (inOut : FixedBytes 16) : State × FixedBytes 16 :=
  let ct := loadBlock inOut
  ((((s.set 0 ct.1.1).set 1 ct.1.2).set 2 ct.2.1).set 3 ct.2.2,
    blockBytes (joinBi (s[0] ^^^ ct.1.1) (s[1] ^^^ ct.1.2))
      (joinBi (s[2] ^^^ ct.2.1) (s[3] ^^^ ct.2.2)))

def squeezeRateU64 (s : State) : BitVec 64 := joinBi s[0] s[1]

def readRateBytes (checks : Bool) (s : State) (n : Nat) : Option Bytes := do
  debugAssert checks (n ≤ 16 ∧ n ≠ 0)
  if n ≤ 8 then some ((toLeBytes (joinBi s[0] s[1])).take n)
  else if n - 8 ≤ 8 then
    some (toLeBytes (joinBi s[0] s[1]) ++ (toLeBytes (joinBi s[2] s[3])).take (n - 8))
  else none

def writeRateBytes (checks : Bool) (s : State) (bytes : Bytes) : Option State := do
  debugAssert checks (bytes.length ≤ 16 ∧ bytes ≠ [])
  let n := bytes.length
  if n ≤ 8 then
    let v := splitBi (fromLeBytes (bytes ++ (toLeBytes (joinBi s[0] s[1])).drop n))
    some ((s.set 0 v.1).set 1 v.2)
  else if n - 8 ≤ 8 then
    let v0 := splitBi (fromLeBytes (bytes.take 8))
    let v1 := splitBi (fromLeBytes (bytes.drop 8 ++ (toLeBytes (joinBi s[2] s[3])).drop (n - 8)))
    some ((((s.set 0 v0.1).set 1 v0.2).set 2 v1.1).set 3 v1.2)
  else none

def applyDomainSep (s : State) : State := s.set 9 (s[9] ^^^ (0x80000000 : BitVec 32))

def applyAeadPad (checks : Bool) (s : State) (n : Nat) : Option State := do
  debugAssert checks (n < 16)
  if n < 8 then some (s.set 0 (s[0] ^^^ ((0x01 : BitVec 32) <<< (4 * n % 32))))
  else some (s.set 2 (s[2] ^^^ ((0x01 : BitVec 32) <<< (4 * (n - 8) % 32))))

def tagBytes (s : State) : FixedBytes 16 := blockBytes (joinBi s[6] s[7]) (joinBi s[8] s[9])

def squeezeByte (s : State) : Bytes := toLeBytes (joinBi s[0] s[1])

def absorbBlock (s : State) (block : Bytes) : Option State :=
  if block.length = 8 then
    let x := splitBi (fromLeBytes block)
    some ((s.set 0 (s[0] ^^^ x.1)).set 1 (s[1] ^^^ x.2))
  else none

def constantBit (c : BitVec 8) (i j : Nat) : BitVec 8 := ((c >>> i) &&& (0x1 : BitVec 8)) <<< j

def constantBi (c : BitVec 8) : BitVec 8 × BitVec 8 :=
  (constantBit c 0 0 ||| constantBit c 2 1 ||| constantBit c 4 2 ||| constantBit c 6 3,
    constantBit c 1 0 ||| constantBit c 3 1 ||| constantBit c 5 2 ||| constantBit c 7 3)

/-- `t ^ ROR(t ^ ROR(t, delta), r)`, the diffusion of one word. -/
def diffuse (t u : BitVec 32) (delta r : Nat) : BitVec 32 × BitVec 32 :=
  let x := rorPair t u delta
  let y := rorPair (t ^^^ x.1) (u ^^^ x.2) r
  (t ^^^ y.1, u ^^^ y.2)

/-- The linear layer `p_L` on the even halves `t` and the odd ones `u`, with the complement
of word 2. -/
def linear (t u : Vector (BitVec 32) 5) : State :=
  let x0 := diffuse t[0] u[0] 9 19
  let x1 := diffuse t[1] u[1] 22 39
  let x2 := diffuse t[2] u[2] 5 1
  let x3 := diffuse t[3] u[3] 7 10
  let x4 := diffuse t[4] u[4] 34 7
  #v[x0.1, x0.2, x1.1, x1.2, ~~~x2.1, ~~~x2.2, x3.1, x3.2, x4.1, x4.2]

def round (s : State) (c : BitVec 8) : State :=
  linear (sbox s[0] s[2] (s[4] ^^^ (constantBi c).1.setWidth 32) s[6] s[8])
    (sbox s[1] s[3] (s[5] ^^^ (constantBi c).2.setWidth 32) s[7] s[9])

end Ascon32b

/-! ## The permutations -/

section

variable {σ : Type} (round : σ → BitVec 8 → σ) (s : σ)

def p12 : σ :=
  [RC4, RC5, RC6, RC7, RC8, RC9, RC10, RC11, RC12, RC13, RC14, RC15].foldl round s

def p8 : σ := [RC8, RC9, RC10, RC11, RC12, RC13, RC14, RC15].foldl round s

end

/-!
## The two cores agree

The map that takes each word of the 64-bit state to its even and its odd bits is a
bijection of the states, and every operation of the one core is carried to the
operation of the other.
-/

def interleave (s : Ascon64b.State) : Ascon32b.State :=
  Vector.ofFn fun i => half 32 (i.val % 2 == 1) s[i.val / 2]

/-! ### Conversions -/

section

open Ascon32b

def deinterleaveIndex (i : Nat) : Nat := if i < 16 then 2 * i else 2 * (i - 16) + 1

def interleaveIndex (i : Nat) : Nat := if i % 2 = 0 then i / 2 else 16 + i / 2

theorem apart_masks :
    Apart (0x22222222 : BitVec 32) 1 ∧ Apart (0x0c0c0c0c : BitVec 32) 2 ∧
      Apart (0x00f000f0 : BitVec 32) 4 ∧ Apart (0x0000ff00 : BitVec 32) 8 := by
  decide

theorem exchangeIndex_lt : ∀ i < 32,
    exchangeIndex (0x22222222 : BitVec 32) 1 i < 32 ∧
      exchangeIndex (0x0c0c0c0c : BitVec 32) 2 i < 32 ∧
      exchangeIndex (0x00f000f0 : BitVec 32) 4 i < 32 ∧
      exchangeIndex (0x0000ff00 : BitVec 32) 8 i < 32 := by
  decide

theorem deinterleaveIndex_front : ∀ i < 32,
    exchangeIndex (0x00f000f0 : BitVec 32) 4 (exchangeIndex (0x0000ff00 : BitVec 32) 8 i) =
      i % 4 + 4 * (i / 16) + 8 * (i / 4 % 4) := by
  decide

theorem deinterleaveIndex_back : ∀ i < 32,
    exchangeIndex (0x22222222 : BitVec 32) 1 (exchangeIndex (0x0c0c0c0c : BitVec 32) 2
      (i % 4 + 4 * (i / 16) + 8 * (i / 4 % 4))) = deinterleaveIndex i := by
  decide

theorem interleaveIndex_front : ∀ i < 32,
    exchangeIndex (0x0c0c0c0c : BitVec 32) 2 (exchangeIndex (0x22222222 : BitVec 32) 1 i) =
      i / 2 % 4 + 4 * (i % 2) + 8 * (i / 8) := by
  decide

theorem interleaveIndex_back : ∀ i < 32,
    exchangeIndex (0x0000ff00 : BitVec 32) 8 (exchangeIndex (0x00f000f0 : BitVec 32) 4
      (i / 2 % 4 + 4 * (i % 2) + 8 * (i / 8))) = interleaveIndex i := by
  decide

theorem getLsbD_deinterleave16 (x : BitVec 32) {i : Nat} (hi : i < 32) :
    (deinterleave16 x).getLsbD i = x.getLsbD (deinterleaveIndex i) := by
  obtain ⟨h1, h2, h4, h8⟩ := apart_masks
  have hi8 := (exchangeIndex_lt i hi).2.2.2
  have hi4 := (exchangeIndex_lt _ hi8).2.2.1
  have hi2 := (exchangeIndex_lt _ hi4).2.1
  rw [deinterleave16, getLsbD_exchange h8 _ hi, getLsbD_exchange h4 _ hi8,
    getLsbD_exchange h2 _ hi4, getLsbD_exchange h1 _ hi2, deinterleaveIndex_front i hi,
    deinterleaveIndex_back i hi]

theorem getLsbD_interleave16 (x : BitVec 32) {i : Nat} (hi : i < 32) :
    (interleave16 x).getLsbD i = x.getLsbD (interleaveIndex i) := by
  obtain ⟨h1, h2, h4, h8⟩ := apart_masks
  have hi1 := (exchangeIndex_lt i hi).1
  have hi2 := (exchangeIndex_lt _ hi1).2.1
  have hi4 := (exchangeIndex_lt _ hi2).2.2.1
  rw [interleave16, getLsbD_exchange h1 _ hi, getLsbD_exchange h2 _ hi1,
    getLsbD_exchange h4 _ hi2, getLsbD_exchange h8 _ hi4, interleaveIndex_front i hi,
    interleaveIndex_back i hi]

theorem low_mask (i : Nat) : (0x0000ffff : BitVec 32).getLsbD i = decide (i < 16) := by
  have hmask : (0x0000ffff : BitVec 32) = BitVec.setWidth 32 (BitVec.allOnes 16) := by decide
  rw [hmask, BitVec.getLsbD_setWidth, BitVec.getLsbD_allOnes]
  by_cases h : i < 16
  · have : i < 32 := by omega
    simp [h, this]
  · simp [h]

theorem high_mask (i : Nat) :
    (0xffff0000 : BitVec 32).getLsbD i = decide (16 ≤ i ∧ i < 32) := by
  have hmask : (0xffff0000 : BitVec 32) = ~~~0x0000ffff := by decide
  rw [hmask, BitVec.getLsbD_not, low_mask]
  by_cases h : i < 16
  · simp [h]
  · simp [h, Nat.le_of_not_lt h]

theorem getLsbD_lower (a b : BitVec 32) {i : Nat} (hi : i < 32) :
    ((a <<< 16) ||| (b &&& (0x0000ffff : BitVec 32))).getLsbD i =
      if i < 16 then b.getLsbD i else a.getLsbD (i - 16) := by
  simp only [BitVec.getLsbD_or, BitVec.getLsbD_shiftLeft, BitVec.getLsbD_and, low_mask]
  by_cases h : i < 16 <;> simp [h, hi]

theorem getLsbD_upper (a b : BitVec 32) {i : Nat} (hi : i < 32) :
    ((a &&& (0xffff0000 : BitVec 32)) ||| (b >>> 16)).getLsbD i =
      if i < 16 then b.getLsbD (i + 16) else a.getLsbD i := by
  rw [BitVec.getLsbD_or, BitVec.getLsbD_ushiftRight, BitVec.getLsbD_and, high_mask]
  by_cases h : i < 16
  · have : ¬16 ≤ i := by omega
    simp [h, this, Nat.add_comm]
  · have hge : 16 ≤ i := by omega
    have hout : b.getLsbD (16 + i) = false := BitVec.getLsbD_of_ge _ _ (by omega)
    simp [h, hge, hi, hout]

theorem splitBi_eq (x : BitVec 64) : splitBi x = (half 32 false x, half 32 true x) := by
  rw [splitBi, toBi, Prod.mk.injEq]
  refine ⟨BitVec.eq_of_getLsbD_eq fun i hi => ?_, BitVec.eq_of_getLsbD_eq fun i hi => ?_⟩
  · rw [getLsbD_lower _ _ hi, getLsbD_half _ _ hi]
    by_cases h : i < 16
    · rw [if_pos h, getLsbD_deinterleave16 _ hi, deinterleaveIndex, if_pos h]
      have : 2 * i < 32 := by omega
      simp [this]
    · rw [if_neg h, getLsbD_deinterleave16 _ (by omega), deinterleaveIndex,
        if_pos (by omega)]
      have hlt : 2 * (i - 16) < 32 := by omega
      have hsum : 32 + 2 * (i - 16) = 2 * i := by omega
      simp [hlt, hsum]
  · rw [getLsbD_upper _ _ hi, getLsbD_half _ _ hi]
    by_cases h : i < 16
    · rw [if_pos h, getLsbD_deinterleave16 _ (by omega), deinterleaveIndex,
        if_neg (by omega)]
      have hlt : 2 * i + 1 < 32 := by omega
      simp [hlt]
    · rw [if_neg h, getLsbD_deinterleave16 _ hi, deinterleaveIndex, if_neg h]
      have hlt : 2 * (i - 16) + 1 < 32 := by omega
      have hsum : 32 + (2 * (i - 16) + 1) = 2 * i + 1 := by omega
      simp [hlt, hsum]

/-- `from_bi` puts the even and the odd bits together again. -/
theorem getLsbD_joinBi (e o : BitVec 32) {i : Nat} (hi : i < 64) :
    (joinBi e o).getLsbD i = if i % 2 = 0 then e.getLsbD (i / 2) else o.getLsbD (i / 2) := by
  have hjoin : (joinBi e o).getLsbD i =
      if i < 32 then (fromBi e o).1.getLsbD i else (fromBi e o).2.getLsbD (i - 32) := by
    simp only [joinBi, BitVec.getLsbD_or, BitVec.getLsbD_shiftLeft, BitVec.getLsbD_setWidth]
    by_cases h : i < 32
    · simp [h, hi]
    · have hout : (fromBi e o).1.getLsbD i = false := BitVec.getLsbD_of_ge _ _ (by omega)
      have hlt : i - 32 < 64 := by omega
      simp [h, hi, hout, hlt]
  rw [hjoin]
  by_cases h : i < 32
  · rw [if_pos h, fromBi, getLsbD_interleave16 _ h, interleaveIndex]
    by_cases heven : i % 2 = 0
    · rw [if_pos heven, if_pos heven, getLsbD_lower _ _ (by omega), if_pos (by omega)]
    · rw [if_neg heven, if_neg heven, getLsbD_lower _ _ (by omega), if_neg (by omega),
        Nat.add_sub_cancel_left]
  · have hparity : (i - 32) % 2 = i % 2 := by omega
    rw [if_neg h, fromBi, getLsbD_interleave16 _ (by omega), interleaveIndex, hparity]
    by_cases heven : i % 2 = 0
    · have hindex : (i - 32) / 2 + 16 = i / 2 := by omega
      rw [if_pos heven, if_pos heven, getLsbD_upper _ _ (by omega), if_pos (by omega), hindex]
    · have hindex : 16 + (i - 32) / 2 = i / 2 := by omega
      rw [if_neg heven, if_neg heven, getLsbD_upper _ _ (by omega), if_neg (by omega), hindex]

theorem joinBi_eq (x : BitVec 64) : joinBi (half 32 false x) (half 32 true x) = x := by
  apply BitVec.eq_of_getLsbD_eq
  intro i hi
  rw [getLsbD_joinBi _ _ hi]
  by_cases heven : i % 2 = 0
  · have hindex : 2 * (i / 2) = i := by omega
    rw [if_pos heven, getLsbD_half _ _ (by omega), Bool.toNat_false, Nat.add_zero, hindex]
  · have hindex : 2 * (i / 2) + 1 = i := by omega
    rw [if_neg heven, getLsbD_half _ _ (by omega), Bool.toNat_true, hindex]

theorem half_joinBi (odd : Bool) (e o : BitVec 32) :
    half 32 odd (joinBi e o) = if odd then o else e := by
  apply BitVec.eq_of_getLsbD_eq
  intro i hi
  have hodd := Bool.toNat_le odd
  have hindex : (2 * i + odd.toNat) / 2 = i := by omega
  have hparity : (2 * i + odd.toNat) % 2 = odd.toNat := by omega
  rw [getLsbD_half _ _ hi, getLsbD_joinBi _ _ (by omega), hindex, hparity]
  cases odd <;> rfl

theorem rorPair_eq (x : BitVec 64) (n : Nat) :
    rorPair (half 32 false x) (half 32 true x) n =
      (half 32 false (x.rotateRight n), half 32 true (x.rotateRight n)) := by
  have hshift : ∀ m : Nat, m >>> 1 = m / 2 := fun m => by
    rw [Nat.shiftRight_eq_div_pow, pow_one]
  rw [rorPair, Nat.and_one_is_mod, hshift, hshift, hshift]
  rcases Nat.mod_two_eq_zero_or_one n with heven | hodd
  · have hn : x.rotateRight n = x.rotateRight (2 * (n / 2)) := by
      congr 1
      omega
    rw [if_pos heven, hn, half_rotateRight_even rfl, half_rotateRight_even rfl]
  · have hn : x.rotateRight n = x.rotateRight (2 * (n / 2) + 1) := by
      congr 1
      omega
    have hdown : (n - 1) / 2 = n / 2 := by omega
    have hup : (n + 1) / 2 = n / 2 + 1 := by omega
    rw [if_neg (by omega), hn, half_rotateRight_odd rfl, half_rotateRight_odd rfl, hdown, hup]
    rfl

theorem diffuse_eq (x : BitVec 64) (delta r : Nat) :
    diffuse (half 32 false x) (half 32 true x) delta r =
      (half 32 false (x ^^^ x.rotateRight r ^^^ x.rotateRight (delta + r)),
        half 32 true (x ^^^ x.rotateRight r ^^^ x.rotateRight (delta + r))) := by
  rw [diffuse, rorPair_eq, ← half_xor, ← half_xor, rorPair_eq, ← half_xor, ← half_xor,
    rotateRight_factor]

theorem getLsbD_constantBit (c : BitVec 8) (i : Nat) {j : Nat} (hj : j < 8) (k : Nat) :
    (constantBit c i j).getLsbD k = (decide (k = j) && c.getLsbD i) := by
  have hone : (0x1 : BitVec 8) = BitVec.ofNat 8 1 := rfl
  rw [constantBit, BitVec.getLsbD_shiftLeft, BitVec.getLsbD_and, BitVec.getLsbD_ushiftRight, hone]
  rcases Nat.lt_trichotomy k j with hlt | heq | hgt
  · simp [hlt, Nat.ne_of_lt hlt]
  · simp [heq, hj]
  · have hbit : k - j ≠ 0 := by omega
    simp [BitVec.getLsbD_one, hbit, Nat.ne_of_gt hgt]

theorem half_constantBits (c : BitVec 8) (odd : Bool) :
    half 32 odd (c.setWidth 64) =
      (constantBit c odd.toNat 0 ||| constantBit c (2 + odd.toNat) 1 |||
        constantBit c (4 + odd.toNat) 2 ||| constantBit c (6 + odd.toNat) 3).setWidth 32 := by
  refine BitVec.eq_of_getLsbD_eq fun i hi => ?_
  have hbits : i = 0 ∨ i = 1 ∨ i = 2 ∨ i = 3 ∨ 4 ≤ i := by omega
  rw [getLsbD_half _ _ hi, BitVec.getLsbD_setWidth, BitVec.getLsbD_setWidth]
  simp only [BitVec.getLsbD_or, getLsbD_constantBit c _ (by decide : 0 < 8),
    getLsbD_constantBit c _ (by decide : 1 < 8), getLsbD_constantBit c _ (by decide : 2 < 8),
    getLsbD_constantBit c _ (by decide : 3 < 8)]
  have hparity := Bool.toNat_le odd
  rcases hbits with rfl | rfl | rfl | rfl | hge
  · cases odd <;> simp
  · cases odd <;> simp
  · cases odd <;> simp
  · cases odd <;> simp
  · have hout : c.getLsbD (2 * i + odd.toNat) = false := BitVec.getLsbD_of_ge _ _ (by omega)
    have hne : i ≠ 0 ∧ i ≠ 1 ∧ i ≠ 2 ∧ i ≠ 3 := by omega
    simp [hout, hne]

theorem constantBi_eq (c : BitVec 8) :
    half 32 false (c.setWidth 64) = (constantBi c).1.setWidth 32 ∧
      half 32 true (c.setWidth 64) = (constantBi c).2.setWidth 32 :=
  ⟨half_constantBits c false, half_constantBits c true⟩

end

/-! ### States -/

theorem getElem_interleave (s : Ascon64b.State) {j : Nat} (hj : j < 10) :
    (interleave s)[j] = half 32 (j % 2 == 1) s[j / 2] := by
  rw [interleave, Vector.getElem_ofFn]

theorem interleave_ext {s t : Ascon64b.State} (h : interleave s = interleave t) : s = t := by
  apply Vector.ext
  intro i hi
  apply halves_ext (n := 32) rfl
  intro odd
  have hodd := Bool.toNat_le odd
  have hslot : 2 * i + odd.toNat < 10 := by omega
  have hget := congrArg (fun v : Ascon32b.State => v.get ⟨2 * i + odd.toNat, hslot⟩) h
  change (interleave _)[2 * i + odd.toNat] = (interleave _)[2 * i + odd.toNat] at hget
  simp only [getElem_interleave] at hget
  have hdiv : (2 * i + odd.toNat) / 2 = i := by omega
  have hmod : ((2 * i + odd.toNat) % 2 == 1) = odd := by
    have : (2 * i + odd.toNat) % 2 = odd.toNat := by omega
    rw [this]
    cases odd <;> rfl
  simpa only [hdiv, hmod] using hget

theorem interleave_joinBi (t : Ascon32b.State) : interleave
    (Vector.ofFn fun i => Ascon32b.joinBi t[2 * i.val] t[2 * i.val + 1]) = t := by
  apply Vector.ext
  intro j hj
  rw [getElem_interleave _ hj, Vector.getElem_ofFn, half_joinBi]
  by_cases hodd : j % 2 = 1
  · have hindex : 2 * (j / 2) + 1 = j := by omega
    simp only [hodd, beq_self_eq_true, if_true, hindex]
  · have hindex : 2 * (j / 2) = j := by omega
    have hbeq : (j % 2 == 1) = false := beq_eq_false_iff_ne.mpr hodd
    simp only [hbeq, Bool.false_eq_true, if_false, hindex]

theorem interleave_bijective : Function.Bijective interleave :=
  ⟨fun _ _ => interleave_ext, fun t => ⟨_, interleave_joinBi t⟩⟩

theorem interleave_mk (a b c d e : BitVec 64) : interleave #v[a, b, c, d, e] =
    #v[half 32 false a, half 32 true a, half 32 false b, half 32 true b, half 32 false c,
      half 32 true c, half 32 false d, half 32 true d, half 32 false e, half 32 true e] := rfl

theorem interleave_set (s : Ascon64b.State) {i j k : Nat} (hi : i < 5) (hj : j = 2 * i)
    (hk : k = 2 * i + 1) (v : BitVec 64) :
    interleave (s.set i v) =
      ((interleave s).set j (half 32 false v)).set k (half 32 true v) := by
  apply Vector.ext
  intro m hm
  rw [getElem_interleave _ hm, Vector.getElem_set, Vector.getElem_set, Vector.getElem_set,
    getElem_interleave _ hm]
  by_cases hodd : k = m
  · have hdiv : i = m / 2 := by omega
    have hmod : m % 2 = 1 := by omega
    rw [if_pos hodd, if_pos hdiv, hmod]
    rfl
  · rw [if_neg hodd]
    by_cases heven : j = m
    · have hdiv : i = m / 2 := by omega
      have hmod : m % 2 = 0 := by omega
      rw [if_pos heven, if_pos hdiv, hmod]
      rfl
    · rw [if_neg heven, if_neg (by omega)]

theorem interleave_even (s : Ascon64b.State) {i j : Nat} (hi : i < 5) (hj : j = 2 * i) :
    (interleave s)[j] = half 32 false s[i] := by
  have hdiv : j / 2 = i := by omega
  have hmod : j % 2 = 0 := by omega
  rw [getElem_interleave s (by omega), hmod]
  simp only [hdiv, Nat.reduceBEq]

theorem interleave_odd (s : Ascon64b.State) {i k : Nat} (hi : i < 5) (hk : k = 2 * i + 1) :
    (interleave s)[k] = half 32 true s[i] := by
  have hdiv : k / 2 = i := by omega
  have hmod : k % 2 = 1 := by omega
  rw [getElem_interleave s (by omega), hmod]
  simp only [hdiv, Nat.reduceBEq]

/-! ### Operations -/

theorem half_not64 (odd : Bool) (x : BitVec 64) : half 32 odd (~~~x) = ~~~half 32 odd x :=
  @half_not 64 32 rfl odd x

theorem half_sbox (odd : Bool) (x0 x1 x2 x3 x4 : BitVec 64) :
    sbox (half 32 odd x0) (half 32 odd x1) (half 32 odd x2) (half 32 odd x3) (half 32 odd x4) =
      (sbox x0 x1 x2 x3 x4).map (half 32 odd) := by
  simp only [sbox, half_xor, half_and, half_not64, Vector.map_mk,
    List.map_toArray, List.map_cons, List.map_nil]

theorem diffusion_not (x : BitVec 64) (a b : Nat) :
    ~~~x ^^^ (~~~x).rotateRight a ^^^ (~~~x).rotateRight b =
      ~~~(x ^^^ x.rotateRight a ^^^ x.rotateRight b) := by
  rw [rotateRight_not, rotateRight_not]
  apply BitVec.eq_of_getLsbD_eq
  intro i hi
  simp only [BitVec.getLsbD_xor, BitVec.getLsbD_not, decide_eq_true hi, Bool.true_and]
  cases x.getLsbD i <;> cases (x.rotateRight a).getLsbD i <;>
    cases (x.rotateRight b).getLsbD i <;> rfl

theorem linear_interleave (t : Vector (BitVec 64) 5) :
    Ascon32b.linear (t.map (half 32 false)) (t.map (half 32 true)) =
      interleave (Ascon64b.linear t) := by
  have hword (i : Nat) (hi : i < 5) (delta r : Nat) :
      Ascon32b.diffuse (t.map (half 32 false))[i] (t.map (half 32 true))[i] delta r =
        (half 32 false (t[i] ^^^ t[i].rotateRight r ^^^ t[i].rotateRight (delta + r)),
          half 32 true (t[i] ^^^ t[i].rotateRight r ^^^ t[i].rotateRight (delta + r))) := by
    rw [Vector.getElem_map, Vector.getElem_map, diffuse_eq]
  have horder (x : BitVec 64) : x ^^^ x.rotateRight 61 ^^^ x.rotateRight 39 =
      x ^^^ x.rotateRight 39 ^^^ x.rotateRight 61 := by
    rw [BitVec.xor_assoc, BitVec.xor_comm (x.rotateRight 61), ← BitVec.xor_assoc]
  have hnot (odd : Bool) (x : BitVec 64) :
      half 32 odd (~~~x ^^^ (~~~x).rotateRight 1 ^^^ (~~~x).rotateRight 6) =
        ~~~half 32 odd (x ^^^ x.rotateRight 1 ^^^ x.rotateRight 6) := by
    rw [diffusion_not x 1 6, half_not64]
  rw [Ascon64b.linear, interleave_mk, horder, hnot, hnot, Ascon32b.linear]
  apply Vector.ext
  intro j hj
  match j, hj with
  | 0, _ => exact congrArg Prod.fst (hword 0 (by decide) 9 19)
  | 1, _ => exact congrArg Prod.snd (hword 0 (by decide) 9 19)
  | 2, _ => exact congrArg Prod.fst (hword 1 (by decide) 22 39)
  | 3, _ => exact congrArg Prod.snd (hword 1 (by decide) 22 39)
  | 4, _ => exact congrArg (fun x => ~~~x.1) (hword 2 (by decide) 5 1)
  | 5, _ => exact congrArg (fun x => ~~~x.2) (hword 2 (by decide) 5 1)
  | 6, _ => exact congrArg Prod.fst (hword 3 (by decide) 7 10)
  | 7, _ => exact congrArg Prod.snd (hword 3 (by decide) 7 10)
  | 8, _ => exact congrArg Prod.fst (hword 4 (by decide) 34 7)
  | 9, _ => exact congrArg Prod.snd (hword 4 (by decide) 34 7)

theorem round_interleave (s : Ascon64b.State) (c : BitVec 8) :
    Ascon32b.round (interleave s) c = interleave (Ascon64b.round s c) := by
  obtain ⟨heven, hodd⟩ := constantBi_eq c
  have ht : sbox (interleave s)[0] (interleave s)[2]
      ((interleave s)[4] ^^^ (Ascon32b.constantBi c).1.setWidth 32) (interleave s)[6]
      (interleave s)[8] =
        (sbox s[0] s[1] (s[2] ^^^ c.setWidth 64) s[3] s[4]).map (half 32 false) := by
    simp only [getElem_interleave, Nat.reduceMod, Nat.reduceDiv, Nat.reduceBEq, ← heven,
      ← half_xor, half_sbox]
  have hu : sbox (interleave s)[1] (interleave s)[3]
      ((interleave s)[5] ^^^ (Ascon32b.constantBi c).2.setWidth 32) (interleave s)[7]
      (interleave s)[9] =
        (sbox s[0] s[1] (s[2] ^^^ c.setWidth 64) s[3] s[4]).map (half 32 true) := by
    simp only [getElem_interleave, Nat.reduceMod, Nat.reduceDiv, Nat.reduceBEq, ← hodd,
      ← half_xor, half_sbox]
  exact (congrArg₂ Ascon32b.linear ht hu).trans (linear_interleave _)

theorem foldl_interleave (constants : List (BitVec 8)) (s : Ascon64b.State) :
    constants.foldl Ascon32b.round (interleave s) =
      interleave (constants.foldl Ascon64b.round s) := by
  induction constants generalizing s with
  | nil => rfl
  | cons c constants ih => rw [List.foldl_cons, List.foldl_cons, round_interleave, ih]

theorem p12_interleave (s : Ascon64b.State) :
    p12 Ascon32b.round (interleave s) = interleave (p12 Ascon64b.round s) :=
  foldl_interleave _ s

theorem p8_interleave (s : Ascon64b.State) :
    p8 Ascon32b.round (interleave s) = interleave (p8 Ascon64b.round s) :=
  foldl_interleave _ s

theorem set_splitBi (r : Ascon64b.State) (v : BitVec 64) {i j k : Nat} (hi : i < 5)
    (hj : j = 2 * i) (hk : k = 2 * i + 1) :
    ((interleave r).set j (Ascon32b.splitBi v).1).set k (Ascon32b.splitBi v).2 =
      interleave (r.set i v) := by
  rw [splitBi_eq, interleave_set r hi hj hk]

theorem xor_splitBi (s r : Ascon64b.State) (v : BitVec 64) {i j k : Nat} (hi : i < 5)
    (hj : j = 2 * i) (hk : k = 2 * i + 1) :
    ((interleave r).set j ((interleave s)[j] ^^^ (Ascon32b.splitBi v).1)).set k
        ((interleave s)[k] ^^^ (Ascon32b.splitBi v).2) =
      interleave (r.set i (s[i] ^^^ v)) := by
  rw [interleave_even s hi hj, interleave_odd s hi hk, splitBi_eq, ← half_xor, ← half_xor,
    interleave_set r hi hj hk]

theorem joinBi_interleave (s : Ascon64b.State) {i j k : Nat} (hi : i < 5) (hj : j = 2 * i)
    (hk : k = 2 * i + 1) : Ascon32b.joinBi (interleave s)[j] (interleave s)[k] = s[i] := by
  rw [interleave_even s hi hj, interleave_odd s hi hk, joinBi_eq]

theorem joinBi_xor (s : Ascon64b.State) (v : BitVec 64) {i j k : Nat} (hi : i < 5)
    (hj : j = 2 * i) (hk : k = 2 * i + 1) :
    Ascon32b.joinBi ((interleave s)[j] ^^^ (Ascon32b.splitBi v).1)
      ((interleave s)[k] ^^^ (Ascon32b.splitBi v).2) = s[i] ^^^ v := by
  rw [interleave_even s hi hj, interleave_odd s hi hk, splitBi_eq, ← half_xor, ← half_xor,
    joinBi_eq]

theorem initHash_interleave (iv : BitVec 64) :
    Ascon32b.initHash iv = interleave (Ascon64b.initHash iv) := by
  have hzero : ∀ odd, half 32 odd (0 : BitVec 64) = 0 := half_zero
  simp only [Ascon32b.initHash, splitBi_eq, Ascon64b.initHash, interleave_mk, hzero]

theorem initAead_interleave (key nonce : FixedBytes 16) (iv : BitVec 64) :
    Ascon32b.initAead key nonce iv = interleave (Ascon64b.initAead key nonce iv) := by
  simp only [Ascon32b.initAead, splitBi_eq, Ascon64b.initAead, interleave_mk]

theorem xorWord_interleave (s : Ascon64b.State) (idx : Nat) (val : BitVec 64) :
    Ascon32b.xorWord (interleave s) idx val = (Ascon64b.xorWord s idx val).map interleave := by
  by_cases h : idx < 5
  · rw [Ascon32b.xorWord, dif_pos (by omega), Ascon64b.xorWord, dif_pos h, Option.map_some]
    exact congrArg some (xor_splitBi s s val h (Nat.mul_comm idx 2) (by omega))
  · rw [Ascon32b.xorWord, dif_neg (by omega), Ascon64b.xorWord, dif_neg h]
    rfl

theorem xorRate_interleave (s : Ascon64b.State) (v0 v1 : BitVec 64) :
    ((((interleave s).set 0 ((interleave s)[0] ^^^ (Ascon32b.splitBi v0).1)).set 1
      ((interleave s)[1] ^^^ (Ascon32b.splitBi v0).2)).set 2
      ((interleave s)[2] ^^^ (Ascon32b.splitBi v1).1)).set 3
      ((interleave s)[3] ^^^ (Ascon32b.splitBi v1).2) =
    interleave ((s.set 0 (s[0] ^^^ v0)).set 1 (s[1] ^^^ v1)) :=
  (congrArg (fun r : Ascon32b.State => (r.set 2
      ((interleave s)[2] ^^^ (Ascon32b.splitBi v1).1)).set 3
      ((interleave s)[3] ^^^ (Ascon32b.splitBi v1).2))
    (xor_splitBi s s v0 (by decide : 0 < 5) rfl rfl)).trans
    (xor_splitBi s (s.set 0 (s[0] ^^^ v0)) v1 (by decide : 1 < 5) rfl rfl)

theorem setRate_interleave (s : Ascon64b.State) (v0 v1 : BitVec 64) :
    ((((interleave s).set 0 (Ascon32b.splitBi v0).1).set 1 (Ascon32b.splitBi v0).2).set 2
      (Ascon32b.splitBi v1).1).set 3 (Ascon32b.splitBi v1).2 =
    interleave ((s.set 0 v0).set 1 v1) :=
  (congrArg (fun r : Ascon32b.State => (r.set 2 (Ascon32b.splitBi v1).1).set 3
      (Ascon32b.splitBi v1).2) (set_splitBi s v0 (by decide : 0 < 5) rfl rfl)).trans
    (set_splitBi (s.set 0 v0) v1 (by decide : 1 < 5) rfl rfl)

theorem xorRate128Bytes_interleave (s : Ascon64b.State) (bytes : FixedBytes 16) :
    Ascon32b.xorRate128Bytes (interleave s) bytes =
      interleave (Ascon64b.xorRate128Bytes s bytes) :=
  xorRate_interleave s _ _

theorem xorPartialRate_interleave (checks : Bool) (s : Ascon64b.State) (bytes : Bytes) :
    Ascon32b.xorPartialRate checks (interleave s) bytes =
      (Ascon64b.xorPartialRate checks s bytes).map interleave := by
  simp only [Ascon32b.xorPartialRate, Ascon64b.xorPartialRate, Option.bind_eq_bind,
    Option.map_bind]
  congr 1
  funext _
  by_cases height : bytes.length ≥ 8
  · have hlow := xor_splitBi (j := 0) (k := 1) s s (fromLeBytes (bytes.take 8))
      (by decide : 0 < 5) rfl rfl
    by_cases hmore : bytes.length > 8
    · simp only [Function.comp_apply, if_pos height, if_pos hmore, Ascon32b.loadToBi, hlow]
      cases padded (bytes.drop 8) with
      | none => rfl
      | some tmp =>
        have hhigh := xor_splitBi (j := 2) (k := 3)
          (s.set 0 (s[0] ^^^ fromLeBytes (bytes.take 8)))
          (s.set 0 (s[0] ^^^ fromLeBytes (bytes.take 8))) (fromLeBytes tmp)
          (by decide : 1 < 5) rfl rfl
        have hother : (s.set 0 (s[0] ^^^ fromLeBytes (bytes.take 8)))[1] = s[1] :=
          Vector.getElem_set_ne _ _ (by decide)
        have hcomm := @Vector.set_comm _ 5 1 0 (s[1] ^^^ fromLeBytes tmp)
          (s[0] ^^^ fromLeBytes (bytes.take 8)) s (by decide) (by decide) (by decide)
        rw [hother] at hhigh
        rw [Option.bind_some, Option.map_some, hcomm]
        exact congrArg some hhigh
    · simp only [Function.comp_apply, if_pos height, if_neg hmore, hlow, Option.map_some]
  · simp only [Function.comp_apply, if_neg height, Ascon32b.loadToBi]
    cases padded bytes with
    | none => rfl
    | some tmp =>
      exact congrArg some (xor_splitBi s s (fromLeBytes tmp) (by decide : 0 < 5) rfl rfl)

theorem encryptInPlaceBlock_interleave (s : Ascon64b.State) (inOut : FixedBytes 16) :
    Ascon32b.encryptInPlaceBlock (interleave s) inOut =
      Prod.map interleave id (Ascon64b.encryptInPlaceBlock s inOut) := by
  have hrate := xorRate_interleave s (fromLeBytes (inOut.octets.take 8))
    (fromLeBytes (inOut.octets.drop 8))
  simp only [Ascon32b.encryptInPlaceBlock, Ascon32b.loadBlock, hrate, Ascon64b.encryptInPlaceBlock,
    Prod.map, id]
  rw [joinBi_interleave _ (by decide : 0 < 5) rfl rfl,
    joinBi_interleave _ (by decide : 1 < 5) rfl rfl]

theorem decryptInPlaceBlock_interleave (s : Ascon64b.State) (inOut : FixedBytes 16) :
    Ascon32b.decryptInPlaceBlock (interleave s) inOut =
      Prod.map interleave id (Ascon64b.decryptInPlaceBlock s inOut) := by
  have hrate := setRate_interleave s (fromLeBytes (inOut.octets.take 8))
    (fromLeBytes (inOut.octets.drop 8))
  simp only [Ascon32b.decryptInPlaceBlock, Ascon32b.loadBlock, hrate, Ascon64b.decryptInPlaceBlock,
    Prod.map, id]
  rw [joinBi_xor s _ (by decide : 0 < 5) rfl rfl, joinBi_xor s _ (by decide : 1 < 5) rfl rfl]

theorem squeezeRateU64_interleave (s : Ascon64b.State) :
    Ascon32b.squeezeRateU64 (interleave s) = Ascon64b.squeezeRateU64 s :=
  joinBi_interleave s (by decide : 0 < 5) rfl rfl

theorem readRateBytes_interleave (checks : Bool) (s : Ascon64b.State) (n : Nat) :
    Ascon32b.readRateBytes checks (interleave s) n = Ascon64b.readRateBytes checks s n := by
  rw [Ascon32b.readRateBytes, Ascon64b.readRateBytes,
    joinBi_interleave s (by decide : 0 < 5) rfl rfl,
    joinBi_interleave s (by decide : 1 < 5) rfl rfl]

theorem writeRateBytes_interleave (checks : Bool) (s : Ascon64b.State) (bytes : Bytes) :
    Ascon32b.writeRateBytes checks (interleave s) bytes =
      (Ascon64b.writeRateBytes checks s bytes).map interleave := by
  rw [Ascon32b.writeRateBytes, Ascon64b.writeRateBytes, Option.bind_eq_bind,
    Option.bind_eq_bind, Option.map_bind, joinBi_interleave s (by decide : 0 < 5) rfl rfl,
    joinBi_interleave s (by decide : 1 < 5) rfl rfl]
  congr 1
  funext _
  by_cases hshort : bytes.length ≤ 8
  · simp only [Function.comp_apply, if_pos hshort]
    exact congrArg some (set_splitBi s _ (by decide : 0 < 5) rfl rfl)
  · by_cases hlong : bytes.length - 8 ≤ 8
    · simp only [Function.comp_apply, if_neg hshort, if_pos hlong]
      exact congrArg some (setRate_interleave s _ _)
    · simp only [Function.comp_apply, if_neg hshort, if_neg hlong]
      rfl

theorem xor_interleave (s : Ascon64b.State) (v : BitVec 64) {e o : BitVec 32}
    (heven : half 32 false v = e) (hodd : half 32 true v = o) {i j k : Nat} (hi : i < 5)
    (hj : j = 2 * i) (hk : k = 2 * i + 1) :
    interleave (s.set i (s[i] ^^^ v)) =
      ((interleave s).set j ((interleave s)[j] ^^^ e)).set k ((interleave s)[k] ^^^ o) := by
  rw [interleave_set s hi hj hk, half_xor, half_xor, heven, hodd, ← interleave_even s hi hj,
    ← interleave_odd s hi hk]

theorem set_xor_zero (r : Ascon32b.State) {j k : Nat} (hj : j < 10) (hk : k < 10) (hne : j ≠ k)
    (v : BitVec 32) :
    (r.set j v).set k (r[k] ^^^ (0 : BitVec 32)) = r.set j v ∧
      (r.set k (r[k] ^^^ (0 : BitVec 32))).set j v = r.set j v := by
  have hzero : r[k] ^^^ (0 : BitVec 32) = r[k] := BitVec.xor_zero
  rw [hzero, Vector.set_getElem_self]
  refine ⟨?_, rfl⟩
  apply Vector.ext
  intro m hm
  rw [Vector.getElem_set]
  by_cases hlast : k = m
  · simp only [← hlast, Vector.getElem_set_ne _ _ hne, if_true]
  · rw [if_neg hlast]

theorem applyDomainSep_interleave (s : Ascon64b.State) :
    Ascon32b.applyDomainSep (interleave s) = interleave (Ascon64b.applyDomainSep s) := by
  have heven : half 32 false (0x8000000000000000 : BitVec 64) = 0 := half_one_shiftLeft rfl _ 63
  have hodd : half 32 true (0x8000000000000000 : BitVec 64) = 0x80000000 :=
    half_one_shiftLeft rfl _ 63
  have hset := xor_interleave (j := 8) (k := 9) s _ heven hodd (by decide : 4 < 5) rfl rfl
  rw [(set_xor_zero (interleave s) (by decide) (by decide) (by decide) _).2] at hset
  exact hset.symm

theorem half_padBit : ∀ m < 8,
    half 32 false ((0x01 : BitVec 64) <<< (8 * m % 64)) = (0x01 : BitVec 32) <<< (4 * m % 32) ∧
      half 32 true ((0x01 : BitVec 64) <<< (8 * m % 64)) = 0 := by
  intro m hm
  have hlong : 8 * m % 64 = 2 * (4 * m) := by omega
  have hshort : 4 * m % 32 = 2 * (4 * m) / 2 := by omega
  have heven : 2 * (4 * m) % 2 = 0 := by omega
  rw [hlong, hshort, half_one_shiftLeft rfl, half_one_shiftLeft rfl, heven]
  exact ⟨if_pos rfl, if_neg (by decide)⟩

theorem applyAeadPad_interleave (checks : Bool) (s : Ascon64b.State) (n : Nat) :
    Ascon32b.applyAeadPad checks (interleave s) n =
      (Ascon64b.applyAeadPad checks s n).map interleave := by
  -- The shift amounts wrap around together.
  have hpad : ∀ m, half 32 false ((0x01 : BitVec 64) <<< (8 * m % 64)) =
      (0x01 : BitVec 32) <<< (4 * m % 32) ∧
      half 32 true ((0x01 : BitVec 64) <<< (8 * m % 64)) = 0 := by
    intro m
    have hlong : 8 * m % 64 = 8 * (m % 8) % 64 := by omega
    have hshort : 4 * m % 32 = 4 * (m % 8) % 32 := by omega
    rw [hlong, hshort]
    exact half_padBit (m % 8) (Nat.mod_lt m (by decide))
  simp only [Ascon32b.applyAeadPad, Ascon64b.applyAeadPad, Option.bind_eq_bind,
    Option.map_bind]
  congr 1
  funext _
  by_cases h : n < 8
  · have hset := xor_interleave (j := 0) (k := 1) s _ (hpad n).1 (hpad n).2
      (by decide : 0 < 5) rfl rfl
    rw [(set_xor_zero (interleave s) (by decide) (by decide) (by decide) _).1] at hset
    simp only [Function.comp_apply, if_pos h, Option.map_some]
    exact congrArg some hset.symm
  · have hset := xor_interleave (j := 2) (k := 3) s _ (hpad (n - 8)).1 (hpad (n - 8)).2
      (by decide : 1 < 5) rfl rfl
    rw [(set_xor_zero (interleave s) (by decide) (by decide) (by decide) _).1] at hset
    simp only [Function.comp_apply, if_neg h, Option.map_some]
    exact congrArg some hset.symm

theorem tagBytes_interleave (s : Ascon64b.State) :
    Ascon32b.tagBytes (interleave s) = Ascon64b.tagBytes s := by
  rw [Ascon32b.tagBytes, joinBi_interleave s (by decide : 3 < 5) rfl rfl,
    joinBi_interleave s (by decide : 4 < 5) rfl rfl, Ascon64b.tagBytes]

theorem squeezeByte_interleave (s : Ascon64b.State) :
    Ascon32b.squeezeByte (interleave s) = Ascon64b.squeezeByte s := by
  rw [Ascon32b.squeezeByte, joinBi_interleave s (by decide : 0 < 5) rfl rfl, Ascon64b.squeezeByte]

theorem absorbBlock_interleave (s : Ascon64b.State) (block : Bytes) :
    Ascon32b.absorbBlock (interleave s) block = (Ascon64b.absorbBlock s block).map interleave := by
  rw [Ascon32b.absorbBlock, Ascon64b.absorbBlock]
  by_cases h : block.length = 8
  · rw [if_pos h, if_pos h]
    exact congrArg some (xor_splitBi s s (fromLeBytes block) (by decide : 0 < 5) rfl rfl)
  · rw [if_neg h, if_neg h]
    rfl

/-!
## The rate of the state

The first two words are the sixteen octets that data goes through.  Each operation of
`ascon_64b.rs` on them is written here as one on these octets.
-/

theorem fromLeBytes_toLeBytes (word : BitVec 64) : fromLeBytes (toLeBytes word) = word := by
  apply BitVec.eq_of_toNat_eq
  rw [fromLeBytes, toLeBytes, leValue_leOctets, BitVec.toNat_ofNat]
  have hlt := word.isLt
  omega

theorem toLeBytes_fromLeBytes {bytes : Bytes} (h : bytes.length = 8) :
    toLeBytes (fromLeBytes bytes) = bytes := by
  have hlt := leValue_lt bytes
  rw [h] at hlt
  have hmod : leValue bytes % 2 ^ 64 = leValue bytes := Nat.mod_eq_of_lt hlt
  rw [toLeBytes, fromLeBytes, BitVec.toNat_ofNat, hmod]
  simpa [h] using leOctets_leValue bytes

theorem toLeBytes_xor (a b : BitVec 64) :
    toLeBytes (a ^^^ b) = xorOctets (toLeBytes a) (toLeBytes b) := by
  rw [toLeBytes, BitVec.toNat_xor, leOctets_xor, toLeBytes, toLeBytes]

def flipHead : Bytes → Bytes
  | [] => []
  | first :: rest => (first ^^^ 0x01) :: rest

theorem flipHead_length (bytes : Bytes) : (flipHead bytes).length = bytes.length := by
  cases bytes <;> rfl

theorem xorOctets_flipHead (bytes : Bytes) :
    xorOctets bytes (0x01 :: List.replicate (bytes.length - 1) 0) = flipHead bytes := by
  cases bytes with
  | nil => rfl
  | cons first rest =>
    have hrest := xorOctets_zeros rest
    simp only [xorOctets] at hrest
    simp [flipHead, hrest]

namespace Ascon64b

def rate (s : State) : Bytes := toLeBytes s[0] ++ toLeBytes s[1]

def withRate (s : State) (octets : Bytes) : State :=
  (s.set 0 (fromLeBytes (octets.take 8))).set 1 (fromLeBytes (octets.drop 8))

@[simp] theorem rate_length (s : State) : (rate s).length = 16 := by
  simp [rate]

theorem rate_take_front (s : State) {n : Nat} (h : n ≤ 8) :
    (rate s).take n = (toLeBytes s[0]).take n := by
  rw [rate, List.take_append_of_le_length (by simpa)]

theorem rate_drop_front (s : State) {n : Nat} (h : n ≤ 8) :
    (rate s).drop n = (toLeBytes s[0]).drop n ++ toLeBytes s[1] := by
  rw [rate, List.drop_append_of_le_length (by simpa)]

theorem rate_take_back (s : State) {n : Nat} (h : 8 ≤ n) :
    (rate s).take n = toLeBytes s[0] ++ (toLeBytes s[1]).take (n - 8) := by
  have hfirst : (toLeBytes s[0]).take n = toLeBytes s[0] :=
    List.take_of_length_le (by simpa using h)
  rw [rate, List.take_append, toLeBytes_length, hfirst]

theorem rate_drop_back (s : State) {n : Nat} (h : 8 ≤ n) :
    (rate s).drop n = (toLeBytes s[1]).drop (n - 8) := by
  have hfirst : (toLeBytes s[0]).drop n = [] := List.drop_of_length_le (by simpa using h)
  rw [rate, List.drop_append, toLeBytes_length, hfirst, List.nil_append]

theorem rate_take_eight (s : State) : (rate s).take 8 = toLeBytes s[0] := by
  rw [rate, List.take_left' (toLeBytes_length s[0])]

theorem rate_drop_eight (s : State) : (rate s).drop 8 = toLeBytes s[1] := by
  rw [rate, List.drop_left' (toLeBytes_length s[0])]

theorem rate_withRate (s : State) {octets : Bytes} (h : octets.length = 16) :
    rate (withRate s octets) = octets := by
  have hfirst : (octets.take 8).length = 8 := by simp [h]
  have hsecond : (octets.drop 8).length = 8 := by simp [h]
  simp [rate, withRate, toLeBytes_fromLeBytes hfirst, toLeBytes_fromLeBytes hsecond]

@[simp] theorem withRate_withRate (s : State) (a b : Bytes) :
    withRate (withRate s a) b = withRate s b := by
  apply Vector.ext
  intro i hi
  simp only [withRate, Vector.getElem_set]
  split
  · rfl
  · split <;> rfl

theorem withRate_append (s : State) (a b : BitVec 64) :
    withRate s (toLeBytes a ++ toLeBytes b) = (s.set 0 a).set 1 b := by
  rw [withRate, List.take_left' (toLeBytes_length a), List.drop_left' (toLeBytes_length a),
    fromLeBytes_toLeBytes, fromLeBytes_toLeBytes]

theorem withRate_rate (s : State) : withRate s (rate s) = s := by
  rw [rate, withRate_append]
  apply Vector.ext
  intro i hi
  simp only [Vector.getElem_set]
  split
  · rename_i hone
    subst hone
    rfl
  · split
    · rename_i hzero
      subst hzero
      rfl
    · rfl

theorem set_zero_eq (s : State) (a : BitVec 64) :
    s.set 0 a = withRate s (toLeBytes a ++ (rate s).drop 8) := by
  rw [rate_drop_eight, withRate_append]
  apply Vector.ext
  intro i hi
  simp only [Vector.getElem_set]
  split
  · split
    · omega
    · rfl
  · split
    · rename_i hone
      subst hone
      rfl
    · rfl

theorem set_one_eq (s : State) (b : BitVec 64) :
    s.set 1 b = withRate s ((rate s).take 8 ++ toLeBytes b) := by
  rw [rate_take_eight, withRate_append]
  apply Vector.ext
  intro i hi
  simp only [Vector.getElem_set]
  split
  · rfl
  · split
    · rename_i hzero
      subst hzero
      rfl
    · rfl

theorem xorRate128Bytes_eq (s : State) (bytes : FixedBytes 16) :
    xorRate128Bytes s bytes = withRate s (xorOctets (rate s) bytes.octets) := by
  have hfirst : (bytes.octets.take 8).length = 8 := by simp [bytes.length_eq]
  have hsecond : (bytes.octets.drop 8).length = 8 := by simp [bytes.length_eq]
  have hsplit : xorOctets (rate s) bytes.octets =
      toLeBytes (s[0] ^^^ fromLeBytes (bytes.octets.take 8)) ++
        toLeBytes (s[1] ^^^ fromLeBytes (bytes.octets.drop 8)) := by
    rw [toLeBytes_xor, toLeBytes_xor, toLeBytes_fromLeBytes hfirst,
      toLeBytes_fromLeBytes hsecond, ← xorOctets_append (by simp [hfirst]),
      List.take_append_drop, rate]
  rw [hsplit, withRate_append, xorRate128Bytes]

theorem debugAssert_of {checks : Bool} {condition : Prop} [Decidable condition]
    (h : condition) : debugAssert checks condition = some () :=
  if_neg fun hfail => hfail.2 h

theorem padded_eq {bytes : Bytes} (h : bytes.length ≤ 8) :
    padded bytes = some (bytes ++ List.replicate (8 - bytes.length) 0) :=
  if_pos h

theorem toLeBytes_xor_padded (word : BitVec 64) {bytes : Bytes} (h : bytes.length ≤ 8) :
    toLeBytes (word ^^^ fromLeBytes (bytes ++ List.replicate (8 - bytes.length) 0)) =
      xorOctets (toLeBytes word) bytes ++ (toLeBytes word).drop bytes.length := by
  have hlength : (bytes ++ List.replicate (8 - bytes.length) (0 : UInt8)).length = 8 := by
    simp
    omega
  rw [toLeBytes_xor, toLeBytes_fromLeBytes hlength]
  have hpadded := @xorOctets_padded (toLeBytes word) bytes (by simpa using h)
  rwa [toLeBytes_length] at hpadded

theorem xorPartialRate_eq (checks : Bool) (s : State) {bytes : Bytes} (hne : bytes ≠ [])
    (h : bytes.length ≤ 16) :
    xorPartialRate checks s bytes =
      some (withRate s (xorOctets (rate s) bytes ++ (rate s).drop bytes.length)) := by
  have hassert : debugAssert checks (bytes.length ≤ 16 ∧ bytes ≠ []) = some () :=
    debugAssert_of ⟨h, hne⟩
  simp only [xorPartialRate, hassert, Option.bind_eq_bind, Option.bind_some]
  rcases Nat.lt_or_ge bytes.length 8 with hshort | hlong
  · rw [if_neg (by omega), padded_eq (by omega), Option.bind_some, set_zero_eq,
      toLeBytes_xor_padded _ (by omega), rate_drop_eight, rate_drop_front s (by omega), rate,
      xorOctets_left (by simp; omega), List.append_assoc]
  rw [if_pos hlong]
  have hfirst : (bytes.take 8).length = 8 := by simp [hlong]
  have hword : toLeBytes (s[0] ^^^ fromLeBytes (bytes.take 8)) =
      xorOctets (toLeBytes s[0]) (bytes.take 8) := by
    rw [toLeBytes_xor, toLeBytes_fromLeBytes hfirst]
  have hsplit : xorOctets (rate s) bytes =
      xorOctets (toLeBytes s[0]) (bytes.take 8) ++ xorOctets (toLeBytes s[1]) (bytes.drop 8) := by
    rw [rate, xorOctets_split (by simpa using hlong), toLeBytes_length]
  have hdrop := rate_drop_back s hlong
  split
  · -- The octets behind the first word are a part of the second.
    have hsecond : (bytes.drop 8).length ≤ 8 := by
      simp
      omega
    have hcomm : (s.set 1 (s[1] ^^^ fromLeBytes
          (bytes.drop 8 ++ List.replicate (8 - (bytes.drop 8).length) 0))).set 0
        (s[0] ^^^ fromLeBytes (bytes.take 8)) =
        (s.set 0 (s[0] ^^^ fromLeBytes (bytes.take 8))).set 1 (s[1] ^^^ fromLeBytes
          (bytes.drop 8 ++ List.replicate (8 - (bytes.drop 8).length) 0)) :=
      Vector.set_comm _ _ (by decide)
    rw [padded_eq hsecond, Option.bind_some, hcomm, ← withRate_append, hword,
      toLeBytes_xor_padded _ hsecond, hsplit, hdrop, List.length_drop, List.append_assoc]
  · have height : bytes.length = 8 := by omega
    have hnone : bytes.drop 8 = [] := List.drop_of_length_le (by omega)
    rw [set_zero_eq, hword, rate_drop_eight, hsplit, hdrop, hnone, height]
    simp

theorem readRateBytes_eq (checks : Bool) (s : State) {n : Nat} (hpos : 0 < n) (h : n ≤ 16) :
    readRateBytes checks s n = some ((rate s).take n) := by
  have hassert : debugAssert checks (n ≤ 16 ∧ n ≠ 0) = some () :=
    debugAssert_of ⟨h, by omega⟩
  simp only [readRateBytes, hassert, Option.bind_eq_bind, Option.bind_some]
  split
  · rw [rate_take_front s (by assumption)]
  · rw [if_pos (by omega), rate_take_back s (by omega)]

theorem writeRateBytes_eq (checks : Bool) (s : State) {bytes : Bytes} (hne : bytes ≠ [])
    (h : bytes.length ≤ 16) :
    writeRateBytes checks s bytes = some (withRate s (bytes ++ (rate s).drop bytes.length)) := by
  have hassert : debugAssert checks (bytes.length ≤ 16 ∧ bytes ≠ []) = some () :=
    debugAssert_of ⟨h, hne⟩
  simp only [writeRateBytes, hassert, Option.bind_eq_bind, Option.bind_some]
  split
  · have hlength : (bytes ++ (toLeBytes s[0]).drop bytes.length).length = 8 := by
      simp
      omega
    rw [set_zero_eq, toLeBytes_fromLeBytes hlength, rate_drop_eight,
      rate_drop_front s (by assumption), List.append_assoc]
  · have hfirst : (bytes.take 8).length = 8 := by
      simp
      omega
    have hlength : (bytes.drop 8 ++ (toLeBytes s[1]).drop (bytes.length - 8)).length = 8 := by
      simp
      omega
    rw [if_pos (by omega), ← withRate_append, toLeBytes_fromLeBytes hfirst,
      toLeBytes_fromLeBytes hlength, rate_drop_back s (by omega), ← List.append_assoc,
      List.take_append_drop]

theorem toLeBytes_bit {n : Nat} (h : n < 8) :
    toLeBytes ((0x01 : BitVec 64) <<< (8 * n % 64)) =
      List.replicate n 0 ++ 0x01 :: List.replicate (7 - n) 0 := by
  interval_cases n <;> rfl

theorem toLeBytes_xor_bit (word : BitVec 64) {n : Nat} (h : n < 8) :
    toLeBytes (word ^^^ ((0x01 : BitVec 64) <<< (8 * n % 64))) =
      (toLeBytes word).take n ++ flipHead ((toLeBytes word).drop n) := by
  have htake : ((toLeBytes word).take n).length = n := by simp; omega
  have hdrop : ((toLeBytes word).drop n).length - 1 = 7 - n := by simp; omega
  have hfront := xorOctets_zeros ((toLeBytes word).take n)
  have hback := xorOctets_flipHead ((toLeBytes word).drop n)
  rw [htake] at hfront
  rw [hdrop] at hback
  rw [toLeBytes_xor, toLeBytes_bit h]
  conv_lhs => rw [← List.take_append_drop n (toLeBytes word)]
  rw [xorOctets_append (by simp; omega), hfront, hback]

theorem flipHead_append {a : Bytes} (b : Bytes) (h : a ≠ []) :
    flipHead (a ++ b) = flipHead a ++ b := by
  cases a with
  | nil => exact absurd rfl h
  | cons first rest => rfl

theorem applyAeadPad_eq (checks : Bool) (s : State) {n : Nat} (h : n < 16) :
    applyAeadPad checks s n =
      some (withRate s ((rate s).take n ++ flipHead ((rate s).drop n))) := by
  have hassert : debugAssert checks (n < 16) = some () := debugAssert_of h
  simp only [applyAeadPad, hassert, Option.bind_eq_bind, Option.bind_some]
  split
  · rename_i hfirst
    have hne : (toLeBytes s[0]).drop n ≠ [] := by
      rw [Ne, List.drop_eq_nil_iff, toLeBytes_length]
      omega
    rw [set_zero_eq, toLeBytes_xor_bit _ hfirst, rate_drop_eight, rate_take_front s (by omega),
      rate_drop_front s (by omega), flipHead_append _ hne, List.append_assoc]
  · rw [set_one_eq, toLeBytes_xor_bit _ (by omega), rate_take_eight, rate_take_back s (by omega),
      rate_drop_back s (by omega), List.append_assoc]

theorem words_of_blockBytes (a b : BitVec 64) :
    fromLeBytes ((blockBytes a b).octets.take 8) = a ∧
      fromLeBytes ((blockBytes a b).octets.drop 8) = b := by
  rw [blockBytes, List.take_left' (toLeBytes_length a), List.drop_left' (toLeBytes_length a),
    fromLeBytes_toLeBytes, fromLeBytes_toLeBytes]
  exact ⟨rfl, rfl⟩

theorem blockBytes_of_words (block : FixedBytes 16) :
    blockBytes (fromLeBytes (block.octets.take 8)) (fromLeBytes (block.octets.drop 8)) =
      block := by
  have hfirst : (block.octets.take 8).length = 8 := by simp [block.length_eq]
  have hsecond : (block.octets.drop 8).length = 8 := by simp [block.length_eq]
  apply FixedBytes.ext
  simp [blockBytes, toLeBytes_fromLeBytes hfirst, toLeBytes_fromLeBytes hsecond]

theorem blockBytes_set (s : State) (a b : BitVec 64) :
    blockBytes ((s.set 0 a).set 1 b)[0] ((s.set 0 a).set 1 b)[1] = blockBytes a b := by
  simp

theorem decrypt_encrypt_block (s : State) (block : FixedBytes 16) :
    decryptInPlaceBlock s (encryptInPlaceBlock s block).2 =
      ((encryptInPlaceBlock s block).1, block) := by
  have hwords := words_of_blockBytes (s[0] ^^^ fromLeBytes (block.octets.take 8))
    (s[1] ^^^ fromLeBytes (block.octets.drop 8))
  have hblock : (encryptInPlaceBlock s block).2 =
      blockBytes (s[0] ^^^ fromLeBytes (block.octets.take 8))
        (s[1] ^^^ fromLeBytes (block.octets.drop 8)) := blockBytes_set s _ _
  rw [hblock, decryptInPlaceBlock]
  simp only [hwords.1, hwords.2, ← BitVec.xor_assoc, BitVec.xor_self, BitVec.zero_xor,
    blockBytes_of_words]
  rfl

theorem encrypt_decrypt_block (s : State) (block : FixedBytes 16) :
    encryptInPlaceBlock s (decryptInPlaceBlock s block).2 =
      ((decryptInPlaceBlock s block).1, block) := by
  have hwords := words_of_blockBytes (s[0] ^^^ fromLeBytes (block.octets.take 8))
    (s[1] ^^^ fromLeBytes (block.octets.drop 8))
  have hblock : (decryptInPlaceBlock s block).2 =
      blockBytes (s[0] ^^^ fromLeBytes (block.octets.take 8))
        (s[1] ^^^ fromLeBytes (block.octets.drop 8)) := rfl
  rw [hblock, encryptInPlaceBlock]
  simp only [hwords.1, hwords.2, ← BitVec.xor_assoc, BitVec.xor_self, BitVec.zero_xor]
  rw [blockBytes_set, blockBytes_of_words]
  rfl

end Ascon64b

end Stdx.Ascon
