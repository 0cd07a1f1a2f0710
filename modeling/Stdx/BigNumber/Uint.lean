import Stdx.Foundation.Limbs
import Stdx.Foundation.Loop

/-!
# Fixed-size unsigned integers

`Uint` of `big_number/big_number.rs`: word primitives, carry chains, the
bit-serial reduction, Barrett reduction and exponentiation.  A carry loop over
limb indices is a recursion over the limbs; a buffer `[0u64; W]` filled from a
slice is that slice followed by zeros.  An assertion that fails is `none`, and
the argument `debug` says whether `debug_assert!` is compiled in.
-/

namespace Stdx.BigNumber

open Stdx.Foundation

def MAX_LIMBS : Nat := 260

def MAX_BARRETT_LIMBS : Nat := MAX_LIMBS / 2 - 1

/-! ## Words -/

def adc (a b carry : UInt64) : UInt64 × UInt64 :=
  let sum := a.toNat + b.toNat + carry.toNat
  (UInt64.ofNat sum, UInt64.ofNat (sum / radix))

def sbb (a b borrow : UInt64) : UInt64 × UInt64 :=
  let diff := radix + a.toNat - b.toNat - borrow.toNat
  (UInt64.ofNat diff, 1 - UInt64.ofNat (diff / radix))

def mac (acc a b carry : UInt64) : UInt64 × UInt64 :=
  let value := acc.toNat + a.toNat * b.toNat + carry.toNat
  (UInt64.ofNat value, UInt64.ofNat (value / radix))

def ctSelectU64 (a b : UInt64) (choice : Bool) : UInt64 :=
  let mask := 0 - (if choice then 1 else 0)
  b ^^^ ((a ^^^ b) &&& mask)

/-- `u64::leading_zeros` -/
def leadingZeros (word : UInt64) : Nat :=
  if word = 0 then 64 else 63 - Nat.log2 word.toNat

/-! ## Carry chains -/

@[grind =]
def addLimbs : Limbs → Limbs → UInt64 → Limbs × UInt64
  | a :: as, b :: bs, carry =>
    let (word, nextCarry) := adc a b carry
    let (words, carryOut) := addLimbs as bs nextCarry
    (word :: words, carryOut)
  | _, _, carry => ([], carry)

@[grind =]
def subLimbs : Limbs → Limbs → UInt64 → Limbs × UInt64
  | a :: as, b :: bs, borrow =>
    let (word, nextBorrow) := sbb a b borrow
    let (words, borrowOut) := subLimbs as bs nextBorrow
    (word :: words, borrowOut)
  | _, _, borrow => ([], borrow)

/-- One bit to the left, `carry` entering below and the top bit leaving. -/
def shiftLimbs : Limbs → UInt64 → Limbs × UInt64
  | word :: words, carry =>
    let next := word >>> 63
    let (shifted, carryOut) := shiftLimbs words next
    (((word <<< 1) ||| carry) :: shifted, carryOut)
  | [], carry => ([], carry)

/-- The tail of a multiplication row: `while carry != 0 && k < out.len()`. -/
@[grind =]
def propagate : Limbs → UInt64 → Limbs
  | [], _ => []
  | word :: words, carry =>
    if carry = 0 then word :: words
    else
      let (sum, nextCarry) := adc word 0 carry
      sum :: propagate words nextCarry

/-- One row `out += a * b` of the schoolbook product. -/
@[grind =]
def mulRow (a : UInt64) : Limbs → Limbs → UInt64 → Limbs
  | word :: out, b :: bs, carry =>
    let (sum, nextCarry) := mac word a b carry
    sum :: mulRow a out bs nextCarry
  | out, [], carry => propagate out carry
  | [], _ :: _, _ => []

/-- `mul_limbs(out, a, a.len(), b, b.len())`; row `i` starts at `out[i]`. -/
@[grind =]
def mulLimbs : Limbs → Limbs → Limbs → Limbs
  | out, [], _ => out
  | out, a :: as, b =>
    match mulRow a out b 0 with
    | [] => []
    | word :: rest => word :: mulLimbs rest as b

/-- `let mut buffer = [0u64; width]; buffer[..words.len()].copy_from_slice(words)` -/
def blit (width : Nat) (words : Limbs) : Limbs :=
  words ++ List.replicate (width - words.length) 0

@[simp] theorem addLimbs_length (a b : Limbs) (carry : UInt64)
    (h : a.length = b.length) : (addLimbs a b carry).1.length = a.length := by
  induction a generalizing b carry with
  | nil => simp [addLimbs]
  | cons x xs ih =>
    cases b with
    | nil => simp at h
    | cons y ys => simpa [addLimbs] using ih ys _ (by simpa using h)

@[simp] theorem subLimbs_length (a b : Limbs) (borrow : UInt64)
    (h : a.length = b.length) : (subLimbs a b borrow).1.length = a.length := by
  induction a generalizing b borrow with
  | nil => simp [subLimbs]
  | cons x xs ih =>
    cases b with
    | nil => simp at h
    | cons y ys => simpa [subLimbs] using ih ys _ (by simpa using h)

@[simp] theorem shiftLimbs_length (words : Limbs) (carry : UInt64) :
    (shiftLimbs words carry).1.length = words.length := by
  induction words generalizing carry with
  | nil => simp [shiftLimbs]
  | cons word words ih => simpa [shiftLimbs] using ih _

@[simp] theorem blit_length {width : Nat} {words : Limbs}
    (h : words.length ≤ width) : (blit width words).length = width := by
  simp [blit, h]

/-! ## Integers -/

/-- `limbs` is little-endian.  Bits at or above `BITS` are up to the caller. -/
@[ext]
structure Uint (BITS LIMBS : Nat) where
  limbs : Limbs
  length_eq : limbs.length = LIMBS
  deriving DecidableEq

namespace Uint

variable {BITS LIMBS : Nat}

def value (x : Uint BITS LIMBS) : Nat := limbsValue x.limbs

def ZERO : Uint BITS LIMBS := ⟨List.replicate LIMBS 0, by simp⟩

def fromU64 (v : UInt64) : Uint BITS LIMBS :=
  ⟨(List.replicate LIMBS 0).set 0 v, by simp⟩

def ONE : Uint BITS LIMBS := fromU64 1

def bit (x : Uint BITS LIMBS) (index : Nat) : Bool :=
  if index ≥ BITS then false
  else (x.limbs.getD (index / 64) 0 >>> UInt64.ofNat (index % 64)) &&& 1 == 1

def isZero (x : Uint BITS LIMBS) : Bool :=
  x.limbs.foldl (· ||| ·) 0 == 0

def bitLenFrom (limbs : Limbs) : Nat → Nat
  | 0 => 0
  | i + 1 =>
    if limbs.getD i 0 ≠ 0 then i * 64 + 64 - leadingZeros (limbs.getD i 0)
    else bitLenFrom limbs i

def bitLen (x : Uint BITS LIMBS) : Nat := bitLenFrom x.limbs LIMBS

def isOdd (x : Uint BITS LIMBS) : Bool := x.limbs.getD 0 0 &&& 1 == 1

def addRaw (x y : Uint BITS LIMBS) : Uint BITS LIMBS × UInt64 :=
  (⟨(addLimbs x.limbs y.limbs 0).1, by
      rw [addLimbs_length _ _ _ (x.length_eq.trans y.length_eq.symm), x.length_eq]⟩,
    (addLimbs x.limbs y.limbs 0).2)

def subRaw (x y : Uint BITS LIMBS) : Uint BITS LIMBS × UInt64 :=
  (⟨(subLimbs x.limbs y.limbs 0).1, by
      rw [subLimbs_length _ _ _ (x.length_eq.trans y.length_eq.symm), x.length_eq]⟩,
    (subLimbs x.limbs y.limbs 0).2)

def ctGe (x y : Uint BITS LIMBS) : Bool := (x.subRaw y).2 == 0

def ctEq (x y : Uint BITS LIMBS) : Bool :=
  (List.zipWith (· ^^^ ·) x.limbs y.limbs).foldl (· ||| ·) 0 == 0

def ctSelect (a b : Uint BITS LIMBS) (choice : Bool) : Uint BITS LIMBS :=
  ⟨List.zipWith (fun x y => ctSelectU64 x y choice) a.limbs b.limbs, by
    simp [a.length_eq, b.length_eq]⟩

def addMod (x y modulus : Uint BITS LIMBS) : Uint BITS LIMBS :=
  let (sum, carry) := x.addRaw y
  let (reduced, borrow) := sum.subRaw modulus
  ctSelect reduced sum ((carry ||| (borrow ^^^ 1)) != 0)

def subMod (x y modulus : Uint BITS LIMBS) : Uint BITS LIMBS :=
  let (diff, borrow) := x.subRaw y
  let (corrected, _) := diff.addRaw modulus
  ctSelect corrected diff (borrow == 1)

def doubleMod (x modulus : Uint BITS LIMBS) : Uint BITS LIMBS :=
  x.addMod x modulus

/-- `(rem << 1 | bit)` with the bit that left the top limb. -/
def shift (rem : Uint BITS LIMBS) (bit : UInt64) : Uint BITS LIMBS × UInt64 :=
  (⟨(shiftLimbs rem.limbs bit).1, by rw [shiftLimbs_length, rem.length_eq]⟩,
    (shiftLimbs rem.limbs bit).2)

/-! ## Bit-serial reduction -/

def mulWideInternal (x y : Uint BITS LIMBS) : Option Limbs :=
  if LIMBS * 2 ≤ MAX_LIMBS then
    some (mulLimbs (List.replicate MAX_LIMBS 0) x.limbs y.limbs)
  else none

def reduceStep (product : Limbs) (modulus : Uint BITS LIMBS) (bitIndex : Nat)
    (rem : Uint BITS LIMBS) : Uint BITS LIMBS :=
  let bit := (product.getD (bitIndex / 64) 0 >>> UInt64.ofNat (bitIndex % 64)) &&& 1
  let (shifted, carry) := rem.shift bit
  let (reduced, borrow) := shifted.subRaw modulus
  ctSelect reduced shifted ((carry ||| (borrow ^^^ 1)) != 0)

def reduceWideInternal (product : Limbs) (modulus : Uint BITS LIMBS) :
    Uint BITS LIMBS :=
  forDown (LIMBS * 128) (reduceStep product modulus) ZERO

def mulMod (x y modulus : Uint BITS LIMBS) : Option (Uint BITS LIMBS) := do
  let product ← mulWideInternal x y
  some (reduceWideInternal product modulus)

/-! ## Barrett reduction -/

/-- `self.bit_len().div_ceil(64)` -/
def effLimbs (modulus : Uint BITS LIMBS) : Nat := (modulus.bitLen + 63) / 64

def mulWideEff (W : Nat) (x y : Uint BITS LIMBS) (eff : Nat) : Option Limbs :=
  if 2 * eff ≤ W then
    some (mulLimbs (List.replicate W 0) (x.limbs.take eff) (y.limbs.take eff))
  else none

/-- One bit of the long division: the quotient bit goes to `mu` below limb
`eff + 1`. -/
def muStep (modulus : Uint BITS LIMBS) (eff bitPos : Nat)
    (s : Limbs × Uint BITS LIMBS) : Limbs × Uint BITS LIMBS :=
  let (mu, rem) := s
  let (shiftedLimbs, carry) := rem.shift 0
  let bit : UInt64 := if bitPos = eff * 128 then 1 else 0
  let shifted : Uint BITS LIMBS :=
    ⟨shiftedLimbs.limbs.set 0 (shiftedLimbs.limbs.getD 0 0 ||| bit), by
      simp [shiftedLimbs.length_eq]⟩
  let (reduced, borrow) := shifted.subRaw modulus
  let rem := ctSelect reduced shifted ((carry ||| (borrow ^^^ 1)) != 0)
  if (carry ||| (borrow ^^^ 1)) != 0 then
    let qi := bitPos / 64
    let qbit := bitPos % 64
    if qi < eff + 1 then
      (mu.set qi (mu.getD qi 0 ||| (1 <<< UInt64.ofNat qbit)), rem)
    else (mu, rem)
  else (mu, rem)

/-- The division of `2 ^ (128 * eff)` by the modulus. -/
def computeMuForBarrettEff (modulus : Uint BITS LIMBS) (eff : Nat) :
    Option Limbs :=
  if LIMBS + 1 ≤ MAX_LIMBS ∧ eff ≥ 1 ∧ eff ≤ LIMBS then
    let totalBits := eff * 128
    some (forDown (totalBits + 1) (muStep modulus eff)
      (List.replicate MAX_LIMBS 0, ZERO)).1
  else none

def computeMuForBarrett (modulus : Uint BITS LIMBS) : Option Limbs :=
  modulus.computeMuForBarrettEff modulus.effLimbs

def correct (W k1 : Nat) (modulus : Uint BITS LIMBS) (r : Limbs) : Limbs :=
  let modLimbs := (List.range k1).map fun j =>
    if j < LIMBS then modulus.limbs.getD j 0 else 0
  let (rTry, borrow) := subLimbs (r.take k1) modLimbs 0
  let choose := borrow == 0
  blit W (List.zipWith (fun x y => ctSelectU64 x y choose) rTry (r.take k1))

/-- The corrected remainder, in the first `k + 1` limbs of a `W`-limb buffer. -/
def barrettRemainder (W : Nat) (product : Limbs) (modulus : Uint BITS LIMBS)
    (mu : Limbs) (k : Nat) : Limbs :=
  let k1 := k + 1
  let kMinus1 := k - 1
  let q1 := blit W ((product.drop kMinus1).take k1)
  let q2 := mulLimbs (List.replicate W 0) (q1.take k1) (mu.take k1)
  let q3 := blit W ((q2.drop k1).take k1)
  let r1 := blit W (product.take k1)
  let q3m := mulLimbs (List.replicate W 0) (q3.take k1) (modulus.limbs.take k)
  let r2 := blit W (q3m.take k1)
  let r := blit W (subLimbs (r1.take k1) (r2.take k1) 0).1
  forRange 0 2 (fun _ => correct W k1 modulus) r

def reduceWideBarrettEffImpl (W : Nat) (product : Limbs)
    (modulus : Uint BITS LIMBS) (mu : Limbs) (eff : Nat) :
    Option (Uint BITS LIMBS) :=
  if h : (eff ≥ 1 ∧ eff ≤ LIMBS) ∧ eff ≤ MAX_BARRETT_LIMBS ∧ 2 * (eff + 1) ≤ W ∧
      product.length ≥ 2 * eff ∧ mu.length ≥ eff + 1 then
    let r := barrettRemainder W product modulus mu eff
    some ⟨blit LIMBS (r.take eff), blit_length (by
      have := h.1.2
      rw [List.length_take]
      omega)⟩
  else none

def mulModBarrettImpl (debug : Bool) (W : Nat) (x y modulus : Uint BITS LIMBS)
    (mu : Limbs) (eff : Nat) : Option (Uint BITS LIMBS) :=
  if (eff ≥ 1 ∧ eff ≤ MAX_BARRETT_LIMBS) ∧ 2 * (eff + 1) ≤ W ∧
      (debug → x.bitLen ≤ eff * 64 ∧ y.bitLen ≤ eff * 64) then do
    let product ← mulWideEff W x y eff
    reduceWideBarrettEffImpl W product modulus mu eff
  else none

def mulModBarrettW (debug : Bool) (W : Nat) (x y modulus : Uint BITS LIMBS)
    (mu : Limbs) : Option (Uint BITS LIMBS) :=
  mulModBarrettImpl debug W x y modulus mu modulus.effLimbs

def mulModBarrett (debug : Bool) (x y modulus : Uint BITS LIMBS) (mu : Limbs) :
    Option (Uint BITS LIMBS) :=
  mulModBarrettW debug MAX_LIMBS x y modulus mu

/-! ## Exponentiation -/

/-- One exponent bit on `(base, result)`; the square after the most significant
bit is left out. -/
def powStep (mul : Uint BITS LIMBS → Uint BITS LIMBS → Option (Uint BITS LIMBS))
    (exp : Uint BITS LIMBS) (i : Nat) (s : Uint BITS LIMBS × Uint BITS LIMBS) :
    Option (Uint BITS LIMBS × Uint BITS LIMBS) :=
  (if exp.bit i then mul s.2 s.1 else some s.2).bind fun result =>
    (if i + 1 < exp.bitLen then mul s.1 s.1 else some s.1).map fun base =>
      (base, result)

def powLoop (mul : Uint BITS LIMBS → Uint BITS LIMBS → Option (Uint BITS LIMBS))
    (exp base result : Uint BITS LIMBS) :
    Option (Uint BITS LIMBS × Uint BITS LIMBS) :=
  forRange 0 exp.bitLen (fun i s => s.bind (powStep mul exp i))
    (some (base, result))

@[grind =]
def modpowBarrettImpl (debug : Bool) (W : Nat) (base exp modulus : Uint BITS LIMBS)
    (mu : Limbs) (eff : Nat) : Option (Uint BITS LIMBS) :=
  if (eff ≥ 1 ∧ eff ≤ MAX_BARRETT_LIMBS) ∧ 2 * (eff + 1) ≤ W then do
    let mul := fun x y => mulModBarrettImpl debug W x y modulus mu eff
    let base ← mul base ONE
    let (_, result) ← powLoop mul exp base ONE
    some result
  else none

def modpowBarrettW (debug : Bool) (W : Nat) (base exp modulus : Uint BITS LIMBS)
    (mu : Limbs) : Option (Uint BITS LIMBS) :=
  modpowBarrettImpl debug W base exp modulus mu modulus.effLimbs

def modpowBarrett (debug : Bool) (base exp modulus : Uint BITS LIMBS)
    (mu : Limbs) : Option (Uint BITS LIMBS) :=
  modpowBarrettW debug MAX_LIMBS base exp modulus mu

def modpow (base exp modulus : Uint BITS LIMBS) : Option (Uint BITS LIMBS) := do
  let mul := fun x y => mulMod x y modulus
  let base ← mul base ONE
  let (_, result) ← powLoop mul exp base ONE
  some result

end Uint

end Stdx.BigNumber
