import Mathlib
import Stdx.Cipher.ChaCha

/-!
# AES, without tables

The bitsliced block cipher of `crypto/src/aes/aes_ct.rs` and `aes.rs`: eight words carry
one bit of each octet of two blocks.  `N` is the number of round keys, 11 or 15.
-/

namespace Stdx.Cipher.Aes

open Stdx.Foundation

abbrev Planes := Vector UInt32 8

/-! ## Rounds -/

/-- The S-box on all octets: the circuit of the source, gate by gate. -/
def bitsliceSbox (q : Planes) : Planes :=
  let x0 := q[7]; let x1 := q[6]; let x2 := q[5]; let x3 := q[4]
  let x4 := q[3]; let x5 := q[2]; let x6 := q[1]; let x7 := q[0]
  let y14 := x3 ^^^ x5; let y13 := x0 ^^^ x6; let y9 := x0 ^^^ x3; let y8 := x0 ^^^ x5
  let t0 := x1 ^^^ x2; let y1 := t0 ^^^ x7; let y4 := y1 ^^^ x3
  let y12 := y13 ^^^ y14; let y2 := y1 ^^^ x0; let y5 := y1 ^^^ x6
  let y3 := y5 ^^^ y8; let t1 := x4 ^^^ y12; let y15 := t1 ^^^ x5
  let y20 := t1 ^^^ x1; let y6 := y15 ^^^ x7; let y10 := y15 ^^^ t0
  let y11 := y20 ^^^ y9; let y7 := x7 ^^^ y11; let y17 := y10 ^^^ y11
  let y19 := y10 ^^^ y8; let y16 := t0 ^^^ y11; let y21 := y13 ^^^ y16
  let y18 := x0 ^^^ y16; let t2 := y12 &&& y15; let t3 := y3 &&& y6
  let t4 := t3 ^^^ t2; let t5 := y4 &&& x7; let t6 := t5 ^^^ t2; let t7 := y13 &&& y16
  let t8 := y5 &&& y1; let t9 := t8 ^^^ t7; let t10 := y2 &&& y7
  let t11 := t10 ^^^ t7; let t12 := y9 &&& y11; let t13 := y14 &&& y17
  let t14 := t13 ^^^ t12; let t15 := y8 &&& y10; let t16 := t15 ^^^ t12
  let t17 := t4 ^^^ t14; let t18 := t6 ^^^ t16; let t19 := t9 ^^^ t14
  let t20 := t11 ^^^ t16; let t21 := t17 ^^^ y20; let t22 := t18 ^^^ y19
  let t23 := t19 ^^^ y21; let t24 := t20 ^^^ y18; let t25 := t21 ^^^ t22
  let t26 := t21 &&& t23; let t27 := t24 ^^^ t26; let t28 := t25 &&& t27
  let t29 := t28 ^^^ t22; let t30 := t23 ^^^ t24; let t31 := t22 ^^^ t26
  let t32 := t31 &&& t30; let t33 := t32 ^^^ t24; let t34 := t23 ^^^ t33
  let t35 := t27 ^^^ t33; let t36 := t24 &&& t35; let t37 := t36 ^^^ t34
  let t38 := t27 ^^^ t36; let t39 := t29 &&& t38; let t40 := t25 ^^^ t39
  let t41 := t40 ^^^ t37; let t42 := t29 ^^^ t33; let t43 := t29 ^^^ t40
  let t44 := t33 ^^^ t37; let t45 := t42 ^^^ t41; let z0 := t44 &&& y15
  let z1 := t37 &&& y6; let z2 := t33 &&& x7; let z3 := t43 &&& y16
  let z4 := t40 &&& y1; let z5 := t29 &&& y7; let z6 := t42 &&& y11
  let z7 := t45 &&& y17; let z8 := t41 &&& y10; let z9 := t44 &&& y12
  let z10 := t37 &&& y3; let z11 := t33 &&& y4; let z12 := t43 &&& y13
  let z13 := t40 &&& y5; let z14 := t29 &&& y2; let z15 := t42 &&& y9
  let z16 := t45 &&& y14; let z17 := t41 &&& y8; let t46 := z15 ^^^ z16
  let t47 := z10 ^^^ z11; let t48 := z5 ^^^ z13; let t49 := z9 ^^^ z10
  let t50 := z2 ^^^ z12; let t51 := z2 ^^^ z5; let t52 := z7 ^^^ z8
  let t53 := z0 ^^^ z3; let t54 := z6 ^^^ z7; let t55 := z16 ^^^ z17
  let t56 := z12 ^^^ t48; let t57 := t50 ^^^ t53; let t58 := z4 ^^^ t46
  let t59 := z3 ^^^ t54; let t60 := t46 ^^^ t57; let t61 := z14 ^^^ t57
  let t62 := t52 ^^^ t58; let t63 := t49 ^^^ t58; let t64 := z4 ^^^ t59
  let t65 := t61 ^^^ t62; let t66 := z1 ^^^ t63; let s0 := t59 ^^^ t63
  let s6 := t56 ^^^ ~~~t62; let s7 := t48 ^^^ ~~~t60; let t67 := t64 ^^^ t65
  let s3 := t53 ^^^ t66; let s4 := t51 ^^^ t66; let s5 := t47 ^^^ t65
  let s1 := t64 ^^^ ~~~s3; let s2 := t55 ^^^ ~~~t67
  #v[s7, s6, s5, s4, s3, s2, s1, s0]

def swapn (q : Planes) (cl ch s : UInt32) (i j : Fin 8) : Planes :=
  let a := q[i]
  let b := q[j]
  let q := q.set i ((a &&& cl) ||| ((b &&& cl) <<< s))
  q.set j (((a &&& ch) >>> s) ||| (b &&& ch))

def ortho (q : Planes) : Planes :=
  let q := swapn q 0x55555555 0xAAAAAAAA 1 0 1
  let q := swapn q 0x55555555 0xAAAAAAAA 1 2 3
  let q := swapn q 0x55555555 0xAAAAAAAA 1 4 5
  let q := swapn q 0x55555555 0xAAAAAAAA 1 6 7
  let q := swapn q 0x33333333 0xCCCCCCCC 2 0 2
  let q := swapn q 0x33333333 0xCCCCCCCC 2 1 3
  let q := swapn q 0x33333333 0xCCCCCCCC 2 4 6
  let q := swapn q 0x33333333 0xCCCCCCCC 2 5 7
  let q := swapn q 0x0F0F0F0F 0xF0F0F0F0 4 0 4
  let q := swapn q 0x0F0F0F0F 0xF0F0F0F0 4 1 5
  let q := swapn q 0x0F0F0F0F 0xF0F0F0F0 4 2 6
  swapn q 0x0F0F0F0F 0xF0F0F0F0 4 3 7

def addRoundKey (q sk : Planes) : Planes := Vector.zipWith (· ^^^ ·) q sk

def shiftRows (q : Planes) : Planes :=
  q.map fun (v : UInt32) =>
    (v &&& (0x000000FF : UInt32)) ||| ((v &&& 0x0000FC00) >>> 2) |||
      ((v &&& 0x00000300) <<< 6) ||| ((v &&& 0x00F00000) >>> 4) ||| ((v &&& 0x000F0000) <<< 4) |||
      ((v &&& 0xC0000000) >>> 6) ||| ((v &&& 0x3F000000) <<< 2)

def rotateRight (word n : UInt32) : UInt32 := (word >>> n) ||| (word <<< (32 - n))

def mixColumns (q : Planes) : Planes :=
  let r := q.map fun x => rotateRight x 8
  let rotr16 := fun x => rotateRight x 16
  #v[q[7] ^^^ r[7] ^^^ r[0] ^^^ rotr16 (q[0] ^^^ r[0]),
    q[0] ^^^ r[0] ^^^ q[7] ^^^ r[7] ^^^ r[1] ^^^ rotr16 (q[1] ^^^ r[1]),
    q[1] ^^^ r[1] ^^^ r[2] ^^^ rotr16 (q[2] ^^^ r[2]),
    q[2] ^^^ r[2] ^^^ q[7] ^^^ r[7] ^^^ r[3] ^^^ rotr16 (q[3] ^^^ r[3]),
    q[3] ^^^ r[3] ^^^ q[7] ^^^ r[7] ^^^ r[4] ^^^ rotr16 (q[4] ^^^ r[4]),
    q[4] ^^^ r[4] ^^^ r[5] ^^^ rotr16 (q[5] ^^^ r[5]),
    q[5] ^^^ r[5] ^^^ r[6] ^^^ rotr16 (q[6] ^^^ r[6]),
    q[6] ^^^ r[6] ^^^ r[7] ^^^ rotr16 (q[7] ^^^ r[7])]

/-- Round key `u` of an expanded schedule, `skey[8 * u..8 * u + 8]`. -/
def roundKey (skey : List UInt32) (u : Nat) : Planes :=
  Vector.ofFn fun i => skey.getD (8 * u + i) 0

def encryptBitsliced (numRounds : Nat) (skey : List UInt32) (q : Planes) : Planes :=
  let q := addRoundKey q (roundKey skey 0)
  let q := forRange 1 (numRounds - 1) (fun u q =>
    addRoundKey (mixColumns (shiftRows (bitsliceSbox q))) (roundKey skey u)) q
  addRoundKey (shiftRows (bitsliceSbox q)) (roundKey skey numRounds)

/-! ## Keys -/

def subWord (x : UInt32) : UInt32 := (ortho (bitsliceSbox (ortho (Vector.replicate 8 x))))[0]

def RCON : List UInt8 := [0x00, 0x01, 0x02, 0x04, 0x08, 0x10, 0x20, 0x40, 0x80, 0x1b, 0x36]

def keySize (N : Nat) : Nat := if N = 11 then 16 else 32

abbrev KeyWord := Vector UInt8 4

def rotWord (w : KeyWord) : KeyWord := #v[w[1], w[2], w[3], w[0]]

def KeyWord.ofOctets (octets : Bytes) : KeyWord := Vector.ofFn fun i => octets.getD i 0

def subKeyWord (w : KeyWord) : KeyWord :=
  .ofOctets (leOctets 4 (subWord (UInt32.ofNat (leValue w.toList))).toNat)

def xorKeyWord (a b : KeyWord) : KeyWord := Vector.zipWith (· ^^^ ·) a b

def nextWord (N nk i : Nat) (w : Array KeyWord) : KeyWord :=
  let zero : KeyWord := Vector.replicate 4 0
  let temp := w.getD (i - 1) zero
  let temp :=
    if i % nk = 0 then
      let temp := subKeyWord (rotWord temp)
      temp.set 0 (temp[0] ^^^ RCON.getD (i / nk) 0)
    else if N = 15 ∧ i % nk = 4 then subKeyWord temp
    else temp
  xorKeyWord (w.getD (i - nk) zero) temp

/-- The `4 * N` words of the schedule; round key `r` is words `4 * r` to `4 * r + 3`. -/
def expandKey (N : Nat) (key : FixedBytes (keySize N)) : Array KeyWord :=
  let nk := keySize N / 4
  let w := (Array.range nk).map fun i => KeyWord.ofOctets (key.octets.drop (4 * i))
  forRange nk (N * 4 - nk) (fun i w => w.push (nextWord N nk i w)) w

structure CtSchedule where
  comp : List UInt32
  numRounds : Nat

def keysched (N : Nat) (roundKeys : Array KeyWord) : CtSchedule where
  comp := (List.range N).flatMap fun round =>
    let w := fun j : Fin 4 => UInt32.ofNat (leValue
      (roundKeys.getD (4 * round + j) (Vector.replicate 4 0)).toList)
    let q := ortho #v[w 0, w 0, w 1, w 1, w 2, w 2, w 3, w 3]
    let merge := fun x y : UInt32 =>
      (x &&& (0x55555555 : UInt32)) ||| (y &&& (0xAAAAAAAA : UInt32))
    [merge q[0] q[1], merge q[2] q[3], merge q[4] q[5], merge q[6] q[7]]
  numRounds := if N = 11 then 10 else 14

def CtSchedule.expand (sched : CtSchedule) : List UInt32 :=
  sched.comp.flatMap fun word =>
    let x : UInt32 := word &&& (0x55555555 : UInt32)
    let y : UInt32 := word &&& (0xAAAAAAAA : UInt32)
    [x ||| (x <<< (1 : UInt32)), y ||| (y >>> (1 : UInt32))]

/-! ## Blocks -/

def loadPair (a b : FixedBytes 16) : Planes :=
  ortho #v[wordAt a.octets 0, wordAt b.octets 0, wordAt a.octets 4, wordAt b.octets 4,
    wordAt a.octets 8, wordAt b.octets 8, wordAt a.octets 12, wordAt b.octets 12]

def storeWords (w0 w1 w2 w3 : UInt32) : FixedBytes 16 where
  octets := leOctets 4 w0.toNat ++ leOctets 4 w1.toNat ++ leOctets 4 w2.toNat ++
    leOctets 4 w3.toNat
  length_eq := by simp

def storePair (q : Planes) : FixedBytes 16 × FixedBytes 16 :=
  let q := ortho q
  (storeWords q[0] q[2] q[4] q[6], storeWords q[1] q[3] q[5] q[7])

def encryptPair (sched : CtSchedule) (a b : FixedBytes 16) :
    FixedBytes 16 × FixedBytes 16 :=
  storePair (encryptBitsliced sched.numRounds sched.expand (loadPair a b))

def encryptBlock (N : Nat) (roundKeys : Array KeyWord) (block : FixedBytes 16) :
    FixedBytes 16 :=
  (encryptPair (keysched N roundKeys) block (.zeroed 16)).1

/-! ## Counter mode -/

def incrementOctets : Bytes → Bytes × Bool
  | [] => ([], true)
  | octet :: rest =>
    let (rest, carry) := incrementOctets rest
    if carry then ((octet + 1) :: rest, octet == 255) else (octet :: rest, false)

theorem incrementOctets_length (octets : Bytes) :
    (incrementOctets octets).1.length = octets.length := by
  induction octets with
  | nil => rfl
  | cons octet rest ih =>
    rw [incrementOctets]
    cases hcarry : (incrementOctets rest).2 <;> simp [hcarry, ih]

def incrementBlock (counter : FixedBytes 16) : FixedBytes 16 :=
  ⟨(incrementOctets counter.octets).1, by
    rw [incrementOctets_length, counter.length_eq]⟩

def xorPairs (sched : CtSchedule) :
    Nat → FixedBytes 16 → Bytes → FixedBytes 16 × Bytes
  | 0, counter, _ => (counter, [])
  | count + 1, counter, inOut =>
    let next := incrementBlock counter
    let (a, b) := encryptPair sched counter next
    let block := List.zipWith (· ^^^ ·) (inOut.take 32) (a.octets ++ b.octets)
    let (counter, rest) := xorPairs sched count (incrementBlock next) (inOut.drop 32)
    (counter, block ++ rest)

def xorSingles (sched : CtSchedule) :
    Nat → FixedBytes 16 → Bytes → FixedBytes 16 × Bytes
  | 0, counter, _ => (counter, [])
  | count + 1, counter, inOut =>
    let a := (encryptPair sched counter (.zeroed 16)).1
    let block := List.zipWith (· ^^^ ·) (inOut.take 16) a.octets
    let (counter, rest) := xorSingles sched count (incrementBlock counter) (inOut.drop 16)
    (counter, block ++ rest)

def xorKeystreamSoft (N : Nat) (roundKeys : Array KeyWord) (counter : FixedBytes 16)
    (inOut : Bytes) : FixedBytes 16 × Bytes :=
  let sched := keysched N roundKeys
  let n := inOut.length
  let (counter, front) := xorPairs sched (n / 32) counter inOut
  let inOut := inOut.drop (n / 32 * 32)
  let (counter, middle) := xorSingles sched (n % 32 / 16) counter inOut
  let inOut := inOut.drop (n % 32 / 16 * 16)
  let a := (encryptPair sched counter (.zeroed 16)).1
  (counter, front ++ middle ++ List.zipWith (· ^^^ ·) inOut a.octets)

end Stdx.Cipher.Aes

/-!
## Two blocks in one pass

After the transposition the even bits of the planes belong to one block and the
odd ones to the other.  A round never lets one lane look at the other: it
commutes with putting one lane in the place of both.
-/

namespace Stdx.Cipher.Aes

open Stdx.Foundation

/-! ## Bits of a word -/

@[grind =]
def bit (x : UInt32) (p : Nat) : Bool := x.toBitVec.getLsbD p

theorem bit_ext {x y : UInt32} (h : ∀ p, p < 32 → bit x p = bit y p) : x = y :=
  UInt32.toBitVec_inj.mp (BitVec.eq_of_getLsbD_eq fun p hp => h p hp)

@[simp] theorem bit_and (x y : UInt32) (p : Nat) : bit (x &&& y) p = (bit x p && bit y p) := by
  simp [bit]

@[simp] theorem bit_or (x y : UInt32) (p : Nat) : bit (x ||| y) p = (bit x p || bit y p) := by
  simp [bit]

@[simp] theorem bit_xor (x y : UInt32) (p : Nat) : bit (x ^^^ y) p = (bit x p ^^ bit y p) := by
  simp [bit]

@[simp] theorem bit_not (x : UInt32) (p : Nat) : bit (~~~x) p = (decide (p < 32) && !bit x p) := by
  simp [bit]

theorem bit_of_le (x : UInt32) {p : Nat} (h : 32 ≤ p) : bit x p = false := by
  rw [bit, BitVec.getLsbD_of_ge _ _ h]

theorem bit_shiftRight (x : UInt32) {n : UInt32} (hn : n.toNat < 32) (p : Nat) :
    bit (x >>> n) p = bit x (n.toNat + p) := by
  have : n.toBitVec % 32#32 = n.toBitVec := by
    apply BitVec.eq_of_toNat_eq
    simp [BitVec.toNat_umod]
    exact hn
  simp [bit, this, BitVec.getLsbD_ushiftRight]

theorem bit_shiftLeft (x : UInt32) {n : UInt32} (hn : n.toNat < 32) (p : Nat) :
    bit (x <<< n) p = (decide (n.toNat ≤ p ∧ p < 32) && bit x (p - n.toNat)) := by
  have : n.toBitVec % 32#32 = n.toBitVec := by
    apply BitVec.eq_of_toNat_eq
    simp [BitVec.toNat_umod]
    exact hn
  simp [bit, this, BitVec.getLsbD_shiftLeft]
  by_cases h1 : p < 32 <;> by_cases h2 : n.toNat ≤ p <;> simp [h1, h2]

/-! ## Lanes -/

def spread (odd : Bool) (x : UInt32) : UInt32 :=
  if odd then (x &&& (0xAAAAAAAA : UInt32)) ||| ((x &&& (0xAAAAAAAA : UInt32)) >>> (1 : UInt32))
  else (x &&& (0x55555555 : UInt32)) ||| ((x &&& (0x55555555 : UInt32)) <<< (1 : UInt32))

theorem bit_even (p : Nat) : bit 0x55555555 p = decide (p < 32 ∧ p % 2 = 0) := by
  by_cases hp : p < 32
  · have : ∀ p : Fin 32, bit 0x55555555 p = decide (p.val < 32 ∧ p.val % 2 = 0) := by decide
    exact this ⟨p, hp⟩
  · rw [bit_of_le _ (by omega)]
    simp [hp]

theorem bit_odd (p : Nat) : bit 0xAAAAAAAA p = decide (p < 32 ∧ p % 2 = 1) := by
  by_cases hp : p < 32
  · have : ∀ p : Fin 32, bit 0xAAAAAAAA p = decide (p.val < 32 ∧ p.val % 2 = 1) := by decide
    exact this ⟨p, hp⟩
  · rw [bit_of_le _ (by omega)]
    simp [hp]

theorem bit_spread (odd : Bool) (x : UInt32) {p : Nat} (hp : p < 32) :
    bit (spread odd x) p = bit x (p / 2 * 2 + odd.toNat) := by
  cases odd with
  | false =>
    rw [spread, if_neg (by decide), bit_or, bit_shiftLeft _ (by decide), bit_and, bit_and,
      bit_even, bit_even]
    rcases Nat.mod_two_eq_zero_or_one p with h | h
    · have : p / 2 * 2 = p := by omega
      simp [h, hp, this]
      omega
    · have : p / 2 * 2 = p - 1 := by omega
      have hpos : 1 ≤ p := by omega
      have hodd : (p - 1) % 2 = 0 := by omega
      have hlt : p - 1 < 32 := by omega
      simp [h, hp, this, hpos, hodd, hlt]
  | true =>
    rw [spread, if_pos rfl, bit_or, bit_shiftRight _ (by decide), bit_and, bit_and,
      bit_odd, bit_odd]
    rcases Nat.mod_two_eq_zero_or_one p with h | h
    · have : p / 2 * 2 + 1 = 1 + p := by omega
      have hodd : (1 + p) % 2 = 1 := by omega
      have hlt : 1 + p < 32 := by omega
      simp [h, hp, this, hodd, hlt]
    · have : p / 2 * 2 + 1 = p := by omega
      have heven : ¬ (1 + p) % 2 = 1 := by omega
      simp [h, hp, this, heven]

section homomorphism

variable (odd : Bool)

@[simp] theorem spread_xor (x y : UInt32) : spread odd (x ^^^ y) = spread odd x ^^^ spread odd y :=
  bit_ext fun p hp => by simp only [bit_spread _ _ hp, bit_xor]

@[simp] theorem spread_and (x y : UInt32) : spread odd (x &&& y) = spread odd x &&& spread odd y :=
  bit_ext fun p hp => by simp only [bit_spread _ _ hp, bit_and]

@[simp] theorem spread_or (x y : UInt32) : spread odd (x ||| y) = spread odd x ||| spread odd y :=
  bit_ext fun p hp => by simp only [bit_spread _ _ hp, bit_or]

@[simp] theorem spread_not (x : UInt32) : spread odd (~~~x) = ~~~spread odd x :=
  bit_ext fun p hp => by
    have hlt : p / 2 * 2 + odd.toNat < 32 := by have := odd.toNat_le; omega
    simp only [bit_spread _ _ hp, bit_not, hlt, hp]

theorem spread_shiftRight (x : UInt32) {n : UInt32} (hn : n.toNat < 32) (heven : n.toNat % 2 = 0) :
    spread odd (x >>> n) = spread odd x >>> n := by
  refine bit_ext fun p hp => ?_
  have hodd := odd.toNat_le
  rw [bit_spread _ _ hp, bit_shiftRight _ hn, bit_shiftRight _ hn]
  by_cases hlt : n.toNat + p < 32
  · rw [bit_spread _ _ hlt]
    congr 1
    omega
  · rw [bit_of_le _ (by omega), bit_of_le _ (by omega)]

theorem spread_shiftLeft (x : UInt32) {n : UInt32} (hn : n.toNat < 32) (heven : n.toNat % 2 = 0) :
    spread odd (x <<< n) = spread odd x <<< n := by
  refine bit_ext fun p hp => ?_
  have hodd := odd.toNat_le
  rw [bit_spread _ _ hp, bit_shiftLeft _ hn, bit_shiftLeft _ hn]
  by_cases hle : n.toNat ≤ p
  · rw [bit_spread _ _ (by omega)]
    have hsub : p / 2 * 2 + odd.toNat - n.toNat = (p - n.toNat) / 2 * 2 + odd.toNat := by omega
    have hl : n.toNat ≤ p / 2 * 2 + odd.toNat ∧ p / 2 * 2 + odd.toNat < 32 := by omega
    rw [hsub, decide_eq_true hl, decide_eq_true ⟨hle, hp⟩]
  · have hl : ¬ (n.toNat ≤ p / 2 * 2 + odd.toNat ∧ p / 2 * 2 + odd.toNat < 32) := by omega
    rw [decide_eq_false hl, decide_eq_false (fun h => hle h.1)]
    rfl

end homomorphism

/-! ## Rounds work on each lane alone -/

def spreadPlanes (odd : Bool) (q : Planes) : Planes := q.map (spread odd)

theorem bitsliceSbox_spread (odd : Bool) (q : Planes) :
    bitsliceSbox (spreadPlanes odd q) = spreadPlanes odd (bitsliceSbox q) := by
  -- one plane at a time: the circuit as a whole is too large a term for the kernel
  refine Vector.ext fun i hi => ?_
  simp only [spreadPlanes, Vector.getElem_map]
  match i, hi with
  | 0, _ | 1, _ | 2, _ | 3, _ | 4, _ | 5, _ | 6, _ | 7, _ =>
    simp only [bitsliceSbox, Vector.getElem_map, Vector.getElem_mk, List.getElem_toArray,
      List.getElem_cons_succ, List.getElem_cons_zero, spread_xor, spread_and, spread_not]

theorem addRoundKey_spread (odd : Bool) (q : Planes) {sk : Planes}
    (hsk : ∀ i : Fin 8, spread odd sk[i] = sk[i]) :
    addRoundKey (spreadPlanes odd q) sk = spreadPlanes odd (addRoundKey q sk) := by
  refine Vector.ext fun i hi => ?_
  have := hsk ⟨i, hi⟩
  simp only [Fin.getElem_fin] at this
  simp [addRoundKey, spreadPlanes, this]

theorem shiftRows_spread (odd : Bool) (q : Planes) :
    shiftRows (spreadPlanes odd q) = spreadPlanes odd (shiftRows q) := by
  refine Vector.ext fun i hi => ?_
  have hmask (m : UInt32) (h : spread true m = m ∧ spread false m = m) : spread odd m = m := by
    cases odd
    · exact h.2
    · exact h.1
  simp only [shiftRows, spreadPlanes, Vector.getElem_map, spread_or, spread_and,
    spread_shiftRight odd _ (n := 2) (by decide) (by decide),
    spread_shiftRight odd _ (n := 4) (by decide) (by decide),
    spread_shiftRight odd _ (n := 6) (by decide) (by decide),
    spread_shiftLeft odd _ (n := 2) (by decide) (by decide),
    spread_shiftLeft odd _ (n := 4) (by decide) (by decide),
    spread_shiftLeft odd _ (n := 6) (by decide) (by decide),
    hmask 0x000000FF (by decide), hmask 0x0000FC00 (by decide), hmask 0x00000300 (by decide),
    hmask 0x00F00000 (by decide), hmask 0x000F0000 (by decide), hmask 0xC0000000 (by decide),
    hmask 0x3F000000 (by decide)]

theorem rotateRight_spread (odd : Bool) (x : UInt32) {n : UInt32} (hpos : 0 < n.toNat)
    (hn : n.toNat < 32) (heven : n.toNat % 2 = 0) :
    spread odd (rotateRight x n) = rotateRight (spread odd x) n := by
  have hback : (32 - n).toNat = 32 - n.toNat := UInt32.toNat_sub_of_le _ _ (by
    rw [UInt32.le_iff_toNat_le]; exact hn.le)
  rw [rotateRight, rotateRight, spread_or, spread_shiftRight odd _ hn heven,
    spread_shiftLeft odd _ (by omega) (by omega)]

theorem mixColumns_spread (odd : Bool) (q : Planes) :
    mixColumns (spreadPlanes odd q) = spreadPlanes odd (mixColumns q) := by
  have h8 (x : UInt32) := rotateRight_spread odd x (n := 8) (by decide) (by decide) (by decide)
  have h16 (x : UInt32) := rotateRight_spread odd x (n := 16) (by decide) (by decide) (by decide)
  simp only [mixColumns, spreadPlanes, Vector.getElem_map, Vector.map_mk, List.map_toArray,
    List.map_cons, List.map_nil, spread_xor, h8, h16]

/-- A schedule that is the same in both lanes. -/
def Symmetric (skey : List UInt32) : Prop := ∀ odd, ∀ w ∈ skey, spread odd w = w

theorem roundKey_symmetric {skey : List UInt32} (h : Symmetric skey) (odd : Bool) (u : Nat)
    (i : Fin 8) : spread odd (roundKey skey u)[i] = (roundKey skey u)[i] := by
  simp only [roundKey, Fin.getElem_fin, Vector.getElem_ofFn]
  rw [List.getD_eq_getElem?_getD]
  cases hget : skey[8 * u + i.val]? with
  | none => cases odd <;> decide
  | some w => exact h odd w (List.mem_of_getElem? hget)

theorem encryptBitsliced_spread (odd : Bool) (numRounds : Nat) {skey : List UInt32}
    (h : Symmetric skey) (q : Planes) :
    encryptBitsliced numRounds skey (spreadPlanes odd q) =
      spreadPlanes odd (encryptBitsliced numRounds skey q) := by
  have hrounds (lo count : Nat) (q : Planes) :
      forRange lo count (fun u q => addRoundKey (mixColumns (shiftRows (bitsliceSbox q)))
        (roundKey skey u)) (spreadPlanes odd q) =
      spreadPlanes odd (forRange lo count (fun u q =>
        addRoundKey (mixColumns (shiftRows (bitsliceSbox q))) (roundKey skey u)) q) := by
    induction count generalizing lo q with
    | zero => rfl
    | succ count ih =>
      rw [forRange_succ, forRange_succ, bitsliceSbox_spread, shiftRows_spread,
        mixColumns_spread, addRoundKey_spread odd _ (roundKey_symmetric h odd lo), ih]
  rw [encryptBitsliced, encryptBitsliced, addRoundKey_spread odd _ (roundKey_symmetric h odd 0)]
  simp only [hrounds, bitsliceSbox_spread, shiftRows_spread,
    addRoundKey_spread odd _ (roundKey_symmetric h odd numRounds)]

theorem expand_symmetric (sched : CtSchedule) : Symmetric sched.expand := by
  intro odd w hw
  rw [CtSchedule.expand, List.mem_flatMap] at hw
  obtain ⟨word, -, hw⟩ := hw
  simp only [List.mem_cons, List.not_mem_nil, or_false] at hw
  rcases hw with rfl | rfl
  · change spread odd (spread false word) = spread false word
    refine bit_ext fun p hp => ?_
    have := odd.toNat_le
    rw [bit_spread _ _ hp, bit_spread _ _ (by omega), bit_spread _ _ hp]
    congr 1
    simp only [Bool.toNat_false]
    omega
  · change spread odd (spread true word) = spread true word
    refine bit_ext fun p hp => ?_
    have := odd.toNat_le
    rw [bit_spread _ _ hp, bit_spread _ _ (by omega), bit_spread _ _ hp]
    congr 1
    simp only [Bool.toNat_true]
    omega

/-! ## The transposition -/

/-- Both words of `swapn`: what a bit of either is, for a mask of every other run of `s` bits. -/
theorem bit_lower {x y cl s : UInt32} (hs : s = 1 ∨ s = 2 ∨ s = 4)
    (hcl : ∀ p, p < 32 → bit cl p = decide (p / s.toNat % 2 = 0)) {p : Nat} (hp : p < 32) :
    bit ((x &&& cl) ||| ((y &&& cl) <<< s)) p =
      if p / s.toNat % 2 = 0 then bit x p else bit y (p - s.toNat) := by
  have hlt : s.toNat < 32 := by rcases hs with rfl | rfl | rfl <;> decide
  rw [bit_or, bit_shiftLeft _ hlt, bit_and, bit_and, hcl p hp, hcl (p - s.toNat) (by omega)]
  split
  · next heven =>
    have hnot : ¬ ((s.toNat ≤ p ∧ p < 32) ∧ (p - s.toNat) / s.toNat % 2 = 0) := by
      rcases hs with rfl | rfl | rfl <;> simp at heven ⊢ <;> omega
    rw [decide_eq_true heven, Bool.and_true]
    by_cases hle : s.toNat ≤ p ∧ p < 32
    · rw [decide_eq_false fun h => hnot ⟨hle, h⟩]
      simp
    · simp [decide_eq_false hle]
  · next hodd =>
    have hle : s.toNat ≤ p ∧ p < 32 := by
      rcases hs with rfl | rfl | rfl <;> simp at hodd ⊢ <;> omega
    have heven : (p - s.toNat) / s.toNat % 2 = 0 := by
      rcases hs with rfl | rfl | rfl <;> simp at hodd ⊢ <;> omega
    rw [decide_eq_false hodd, decide_eq_true hle, decide_eq_true heven]
    simp

theorem bit_upper {x y ch s : UInt32} (hs : s = 1 ∨ s = 2 ∨ s = 4)
    (hch : ∀ p, p < 32 → bit ch p = decide (p / s.toNat % 2 = 1)) {p : Nat} (hp : p < 32) :
    bit (((x &&& ch) >>> s) ||| (y &&& ch)) p =
      if p / s.toNat % 2 = 0 then bit x (p + s.toNat) else bit y p := by
  have hlt : s.toNat < 32 := by rcases hs with rfl | rfl | rfl <;> decide
  rw [bit_or, bit_shiftRight _ hlt, bit_and, bit_and, hch p hp, Nat.add_comm s.toNat]
  split
  · next heven =>
    have hroom : p + s.toNat < 32 := by rcases hs with rfl | rfl | rfl <;> simp at heven ⊢ <;> omega
    have hodd : (p + s.toNat) / s.toNat % 2 = 1 := by
      rcases hs with rfl | rfl | rfl <;> simp at heven ⊢ <;> omega
    rw [hch _ hroom, decide_eq_true hodd, decide_eq_false (by omega)]
    simp
  · next hodd =>
    have hnot : bit ch (p + s.toNat) = false := by
      by_cases hroom : p + s.toNat < 32
      · rw [hch _ hroom]
        rcases hs with rfl | rfl | rfl <;> simp at hodd ⊢ <;> omega
      · exact bit_of_le _ (by omega)
    rw [hnot, decide_eq_true (show p / s.toNat % 2 = 1 by omega)]
    simp

def lower (cl s x y : UInt32) : UInt32 := (x &&& cl) ||| ((y &&& cl) <<< s)
def upper (ch s x y : UInt32) : UInt32 := ((x &&& ch) >>> s) ||| (y &&& ch)

def stage1 (q : Planes) : Planes :=
  let lo := lower 0x55555555 1
  let hi := upper 0xAAAAAAAA 1
  #v[lo q[0] q[1], hi q[0] q[1], lo q[2] q[3], hi q[2] q[3],
    lo q[4] q[5], hi q[4] q[5], lo q[6] q[7], hi q[6] q[7]]

def stage2 (q : Planes) : Planes :=
  let lo := lower 0x33333333 2
  let hi := upper 0xCCCCCCCC 2
  #v[lo q[0] q[2], lo q[1] q[3], hi q[0] q[2], hi q[1] q[3],
    lo q[4] q[6], lo q[5] q[7], hi q[4] q[6], hi q[5] q[7]]

def stage4 (q : Planes) : Planes :=
  let lo := lower 0x0F0F0F0F 4
  let hi := upper 0xF0F0F0F0 4
  #v[lo q[0] q[4], lo q[1] q[5], lo q[2] q[6], lo q[3] q[7],
    hi q[0] q[4], hi q[1] q[5], hi q[2] q[6], hi q[3] q[7]]

theorem ortho_eq (q : Planes) : ortho q = stage4 (stage2 (stage1 q)) := by
  refine Vector.ext fun k hk => ?_
  interval_cases k <;> simp [ortho, swapn, stage1, stage2, stage4, lower, upper]

def planeBit (q : Planes) (k p : Nat) : Bool := if h : k < 8 then bit q[k] p else false

def stageBit (s : Nat) (q : Planes) (k p : Nat) : Bool :=
  if k / s % 2 = p / s % 2 then planeBit q k p
  else if p / s % 2 = 0 then planeBit q (k - s) (p + s)
  else planeBit q (k + s) (p - s)

theorem planeBit_stage1 (q : Planes) {k p : Nat} (hk : k < 8) (hp : p < 32) :
    planeBit (stage1 q) k p = stageBit 1 q k p := by
  have hlo {x y : UInt32} := @bit_lower x y 0x55555555 1 (by decide) (by decide) p hp
  have hhi {x y : UInt32} := @bit_upper x y 0xAAAAAAAA 1 (by decide) (by decide) p hp
  simp only [show (1 : UInt32).toNat = 1 from rfl, Nat.div_one] at hlo hhi
  rcases Nat.mod_two_eq_zero_or_one p with h | h
  all_goals interval_cases k <;>
    simp [planeBit, stageBit, stage1, lower, upper, hlo, hhi, h, -bit_or]

theorem planeBit_stage2 (q : Planes) {k p : Nat} (hk : k < 8) (hp : p < 32) :
    planeBit (stage2 q) k p = stageBit 2 q k p := by
  have hlo {x y : UInt32} := @bit_lower x y 0x33333333 2 (by decide) (by decide) p hp
  have hhi {x y : UInt32} := @bit_upper x y 0xCCCCCCCC 2 (by decide) (by decide) p hp
  simp only [show (2 : UInt32).toNat = 2 from rfl] at hlo hhi
  rcases Nat.mod_two_eq_zero_or_one (p / 2) with h | h
  all_goals interval_cases k <;>
    simp [planeBit, stageBit, stage2, lower, upper, hlo, hhi, h, -bit_or]

theorem planeBit_stage4 (q : Planes) {k p : Nat} (hk : k < 8) (hp : p < 32) :
    planeBit (stage4 q) k p = stageBit 4 q k p := by
  have hlo {x y : UInt32} := @bit_lower x y 0x0F0F0F0F 4 (by decide) (by decide) p hp
  have hhi {x y : UInt32} := @bit_upper x y 0xF0F0F0F0 4 (by decide) (by decide) p hp
  simp only [show (4 : UInt32).toNat = 4 from rfl] at hlo hhi
  rcases Nat.mod_two_eq_zero_or_one (p / 4) with h | h
  all_goals interval_cases k <;>
    simp [planeBit, stageBit, stage4, lower, upper, hlo, hhi, h, -bit_or]

theorem stageBit_exchange (s : Nat) (q : Planes) (k p : Nat) :
    stageBit s q k p = planeBit q (k - k / s % 2 * s + p / s % 2 * s)
      (p - p / s % 2 * s + k / s % 2 * s) := by
  have hdigit (n : Nat) (h : n / s % 2 = 1) : n - s + s = n := by
    rcases Nat.lt_or_ge n s with hlt | hge
    · rw [Nat.div_eq_of_lt hlt] at h
      omega
    · omega
  unfold stageBit
  rcases Nat.mod_two_eq_zero_or_one (k / s) with hk | hk <;>
    rcases Nat.mod_two_eq_zero_or_one (p / s) with hp | hp <;>
      simp [hk, hp, hdigit]

theorem planeBit_ortho (q : Planes) {k p : Nat} (hk : k < 8) (hp : p < 32) :
    planeBit (ortho q) k p = planeBit q (p % 8) (p / 8 * 8 + k) := by
  have hat {q : Planes} {k p k' p' : Nat} (hk : k = k') (hp : p = p') :
      planeBit q k p = planeBit q k' p' := by rw [hk, hp]
  have hstage4 : planeBit (ortho q) k p =
      planeBit (stage2 (stage1 q)) (p / 4 % 2 * 4 + k % 4) (p / 8 * 8 + k / 4 * 4 + p % 4) := by
    rw [ortho_eq, planeBit_stage4 _ hk hp, stageBit_exchange]
    exact hat (by omega) (by omega)
  have hstage2 : planeBit (stage2 (stage1 q)) (p / 4 % 2 * 4 + k % 4)
      (p / 8 * 8 + k / 4 * 4 + p % 4) =
      planeBit (stage1 q) (p / 2 % 4 * 2 + k % 2) (p / 8 * 8 + k / 2 * 2 + p % 2) := by
    rw [planeBit_stage2 _ (by omega) (by omega), stageBit_exchange]
    exact hat (by omega) (by omega)
  rw [hstage4, hstage2, planeBit_stage1 _ (by omega) (by omega), stageBit_exchange]
  exact hat (by omega) (by omega)

theorem planes_ext {q r : Planes} (h : ∀ k p, k < 8 → p < 32 → planeBit q k p = planeBit r k p) :
    q = r := by
  refine Vector.ext fun k hk => bit_ext fun p hp => ?_
  have := h k p hk hp
  simpa [planeBit, hk] using this

theorem ortho_ortho (q : Planes) : ortho (ortho q) = q := by
  refine planes_ext fun k p hk hp => ?_
  rw [planeBit_ortho _ hk hp, planeBit_ortho _ (by omega) (by omega)]
  congr 1 <;> omega

/-! ## Two blocks side by side -/

def double (odd : Bool) (w : Planes) : Planes :=
  if odd then #v[w[1], w[1], w[3], w[3], w[5], w[5], w[7], w[7]]
  else #v[w[0], w[0], w[2], w[2], w[4], w[4], w[6], w[6]]

theorem planeBit_double (odd : Bool) (w : Planes) {k : Nat} (hk : k < 8) (p : Nat) :
    planeBit (double odd w) k p = planeBit w (k / 2 * 2 + odd.toNat) p := by
  cases odd <;> interval_cases k <;> simp [planeBit, double]

theorem planeBit_spread (odd : Bool) (q : Planes) {k p : Nat} (hk : k < 8) (hp : p < 32) :
    planeBit (spreadPlanes odd q) k p = planeBit q k (p / 2 * 2 + odd.toNat) := by
  simp [planeBit, spreadPlanes, hk, bit_spread _ _ hp]

theorem spreadPlanes_ortho (odd : Bool) (w : Planes) :
    spreadPlanes odd (ortho w) = ortho (double odd w) := by
  have hodd := odd.toNat_le
  refine planes_ext fun k p hk hp => ?_
  rw [planeBit_spread _ _ hk hp, planeBit_ortho _ hk (by omega), planeBit_ortho _ hk hp,
    planeBit_double _ _ (by omega)]
  congr 1 <;> omega

theorem ortho_spreadPlanes (odd : Bool) (q : Planes) :
    ortho (spreadPlanes odd q) = double odd (ortho q) := by
  rw [← ortho_ortho (double odd (ortho q)), ← spreadPlanes_ortho, ortho_ortho]

theorem loadPair_spread (a b : FixedBytes 16) :
    spreadPlanes false (loadPair a b) = loadPair a a ∧
      spreadPlanes true (loadPair a b) = loadPair b b := by
  constructor <;> rw [loadPair, spreadPlanes_ortho] <;> simp [double, loadPair]

theorem storePair_spread (q : Planes) :
    (storePair (spreadPlanes false q)).1 = (storePair q).1 ∧
      (storePair (spreadPlanes true q)).1 = (storePair q).2 := by
  constructor <;> simp [storePair, ortho_spreadPlanes, double]

theorem pass_lanes {E : Planes → Planes}
    (hE : ∀ odd q, E (spreadPlanes odd q) = spreadPlanes odd (E q)) (a b : FixedBytes 16) :
    storePair (E (loadPair a b)) =
      ((storePair (E (loadPair a a))).1, (storePair (E (loadPair b b))).1) := by
  obtain ⟨hfirst, hsecond⟩ := storePair_spread (E (loadPair a b))
  rw [← hE, (loadPair_spread a b).1] at hfirst
  rw [← hE, (loadPair_spread a b).2] at hsecond
  exact Prod.ext hfirst.symm hsecond.symm

theorem encryptPair_eq (sched : CtSchedule) (a b : FixedBytes 16) :
    encryptPair sched a b =
      ((encryptPair sched a (.zeroed 16)).1, (encryptPair sched b (.zeroed 16)).1) := by
  have hlanes := @pass_lanes (encryptBitsliced sched.numRounds sched.expand)
    (fun odd q => encryptBitsliced_spread odd _ (expand_symmetric sched) q)
  unfold encryptPair
  rw [hlanes a b, hlanes a (.zeroed 16), hlanes b (.zeroed 16)]

end Stdx.Cipher.Aes
