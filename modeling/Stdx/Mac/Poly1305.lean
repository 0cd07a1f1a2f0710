import Stdx.Foundation.LittleEndian
import Stdx.Foundation.Chunks

/-!
# Poly1305

The accumulator of `crypto/src/poly1305.rs`: three `u64` limbs that stay partly
reduced between blocks, and a buffer for an incomplete block.  Words are naturals.
Additions the source writes with a plain `+` are checked here, so `none` is an
arithmetic overflow.
-/

namespace Stdx.Mac

open Stdx.Foundation

def R_MASK_0 : Nat := 0x0ffffffc0fffffff
def R_MASK_1 : Nat := 0x0ffffffc0ffffffc

/-- `2 ^ 130 - 5` in three limbs. -/
def P_0 : Nat := 0xfffffffffffffffb
def P_1 : Nat := 0xffffffffffffffff
def P_2 : Nat := 0x3

/-! ## Words -/

def mul64 (a b : Nat) : Nat × Nat := (a * b % 2 ^ 64, a * b / 2 ^ 64)

def add64 (a b carry : Nat) : Nat × Nat :=
  let s1 := (a + b) % 2 ^ 64
  let c1 := (a + b) / 2 ^ 64
  let s2 := (s1 + carry) % 2 ^ 64
  let c2 := (s1 + carry) / 2 ^ 64
  (s2, c1 + c2)

def overflowingSub (a b : Nat) : Nat × Nat :=
  if b ≤ a then (a - b, 0) else (a + 2 ^ 64 - b, 1)

def sub64 (a b borrow : Nat) : Nat × Nat :=
  let (d1, c1) := overflowingSub a b
  let (d2, c2) := overflowingSub d1 borrow
  (d2, c1 + c2)

def wrappingSub64 (a b : Nat) : Nat := (overflowingSub a b).1

def select64 (v x y : Nat) : Nat :=
  let mask := wrappingSub64 v 1
  ((2 ^ 64 - 1 - mask) &&& x) ||| (mask &&& y)

/-- `a + b` of two `u64` -/
def checkedAdd (a b : Nat) : Option Nat := if a + b < 2 ^ 64 then some (a + b) else none

def add128 (aLo aHi bLo bHi : Nat) : Option (Nat × Nat) := do
  let lo := (aLo + bLo) % 2 ^ 64
  let c := (aLo + bLo) / 2 ^ 64
  let hi ← checkedAdd (← checkedAdd aHi bHi) c
  some (lo, hi)

/-! ## The accumulator -/

structure Limbs3 where
  h0 : Nat
  h1 : Nat
  h2 : Nat
  deriving DecidableEq

structure Limbs2 where
  l0 : Nat
  l1 : Nat
  deriving DecidableEq

def keyInit (key : FixedBytes 32) : Limbs2 × Limbs2 :=
  let word := fun i => leValue ((key.octets.drop i).take 8)
  (⟨word 0 &&& R_MASK_0, word 8 &&& R_MASK_1⟩, ⟨word 16, word 24⟩)

/-- `h * r` in four words; the high words of the products of `h2` are dropped. -/
def product (h0 h1 h2 : Nat) (r : Limbs2) : Option (Nat × Nat × Nat × Nat) := do
  let (h0r0l, h0r0h) := mul64 h0 r.l0
  let (h1r0l, h1r0h) := mul64 h1 r.l0
  let (h2r0l, _) := mul64 h2 r.l0
  let (h0r1l, h0r1h) := mul64 h0 r.l1
  let (h1r1l, h1r1h) := mul64 h1 r.l1
  let (h2r1l, _) := mul64 h2 r.l1
  let (m1l, m1h) ← add128 h1r0l h1r0h h0r1l h0r1h
  let (m2l, m2h) ← add128 h2r0l 0 h1r1l h1r1h
  let (t1, c) := add64 m1l h0r0h 0
  let (t2, c) := add64 m2l m1h c
  let (t3, _) := add64 h2r1l m2h c
  some (h0r0l, t1, t2, t3)

/-- The value modulo `2 ^ 130` and five times the rest, which is added as four times
the rest and the rest. -/
def reduce (t0 t1 t2 t3 : Nat) : Option Limbs3 := do
  let cc0 := t2 &&& (2 ^ 64 - 1 - 3)
  let cc1 := t3
  let (nh0, c) := add64 t0 cc0 0
  let (nh1, c) := add64 t1 cc1 c
  let nh2 ← checkedAdd (t2 &&& 3) c
  let cc20 := (cc0 >>> 2) ||| (((cc1 &&& 3) <<< 62) % 2 ^ 64)
  let cc21 := cc1 >>> 2
  let (h0, c) := add64 nh0 cc20 0
  let (h1, c) := add64 nh1 cc21 c
  let h2 ← checkedAdd nh2 c
  some ⟨h0, h1, h2⟩

def absorb (h : Limbs3) (r : Limbs2) (t0 t1 : Nat) (hibit : Bool) : Option Limbs3 := do
  let (h0, c) := add64 h.h0 t0 0
  let (h1, c) := add64 h.h1 t1 c
  let h2 ← checkedAdd (← checkedAdd h.h2 c) (if hibit then 1 else 0)
  let (t0, t1, t2, t3) ← product h0 h1 h2 r
  reduce t0 t1 t2 t3

/-- `u64::from_le_bytes` of the two halves of sixteen octets. -/
def blockWords (block : Bytes) : Nat × Nat :=
  (leValue (block.take 8), leValue ((block.drop 8).take 8))

def blocks (r : Limbs2) : Nat → Bytes → Limbs3 → Option Limbs3
  | 0, _, h => some h
  | count + 1, data, h => do
      let (t0, t1) := blockWords (data.take 16)
      let h ← absorb h r t0 t1 true
      blocks r count (data.drop 16) h

def finalBlock (h : Limbs3) (r : Limbs2) (tail : Bytes) : Option Limbs3 :=
  let m := tail ++ [1] ++ List.replicate (15 - tail.length) 0
  let (t0, t1) := blockWords m
  absorb h r t0 t1 false

def finish (h : Limbs3) (s : Limbs2) : Bytes :=
  let (hmp0, b) := sub64 h.h0 P_0 0
  let (hmp1, b) := sub64 h.h1 P_1 b
  let (_, b) := sub64 h.h2 P_2 b
  let h0 := select64 b h.h0 hmp0
  let h1 := select64 b h.h1 hmp1
  let (t0, c) := add64 h0 s.l0 0
  let (t1, _) := add64 h1 s.l1 c
  leOctets 8 t0 ++ leOctets 8 t1

/-! ## Streaming -/

structure Poly1305 where
  h : Limbs3
  r : Limbs2
  s : Limbs2
  buffer : FixedBytes 16
  bufferLen : Nat

namespace Poly1305

def new (key : FixedBytes 32) : Poly1305 :=
  let (r, s) := keyInit key
  ⟨⟨0, 0, 0⟩, r, s, .zeroed 16, 0⟩

/-- `buffer[start..start + data.len()].copy_from_slice(data)`; `none` out of range. -/
def copyInto (buffer : FixedBytes 16) (start : Nat) (data : Bytes) :
    Option (FixedBytes 16) :=
  if h : start + data.length ≤ 16 then
    some ⟨buffer.octets.take start ++ data ++ buffer.octets.drop (start + data.length), by
      have := buffer.length_eq
      simp
      omega⟩
  else none

def absorbRest (mac : Poly1305) (data : Bytes) : Option Poly1305 := do
  let remaining := data.length
  let h ← blocks mac.r (remaining / 16) data mac.h
  let tail := data.drop (data.length - remaining % 16)
  if tail = [] then some { mac with h := h }
  else
    let buffer ← copyInto mac.buffer 0 tail
    some { mac with h := h, buffer := buffer, bufferLen := tail.length }

def update (mac : Poly1305) (data : Bytes) : Option Poly1305 :=
  if mac.bufferLen > 0 then do
    let toCopy := min (16 - mac.bufferLen) data.length
    let buffer ← copyInto mac.buffer mac.bufferLen (data.take toCopy)
    let bufferLen := mac.bufferLen + toCopy
    if bufferLen = 16 then
      let h ← blocks mac.r 1 buffer.octets mac.h
      absorbRest { mac with h := h, buffer := buffer, bufferLen := 0 } (data.drop toCopy)
    else some { mac with buffer := buffer, bufferLen := bufferLen }
  else absorbRest mac data

def updates (mac : Poly1305) : List Bytes → Option Poly1305
  | [] => some mac
  | data :: rest => do updates (← mac.update data) rest

def finalize (mac : Poly1305) : Option Bytes := do
  let h ← if mac.bufferLen > 0
    then finalBlock mac.h mac.r (mac.buffer.octets.take mac.bufferLen)
    else some mac.h
  some (finish h mac.s)

end Poly1305

/-! ## RFC 8439 -/

def P : Nat := 2 ^ 130 - 5

/-- The clamp of section 2.5.1 on the sixteen octets of `r`. -/
def clamp (octets : Bytes) : Nat := leValue octets &&& 0x0ffffffc0ffffffc0ffffffc0fffffff

def paddedBlock (message : Bytes) (i : Nat) : Nat :=
  leValue ((message.drop (16 * i)).take 16 ++ [1])

def blockCount (message : Bytes) : Nat := (message.length + 15) / 16

def polynomial (r : Nat) (message : Bytes) : Nat :=
  ∑ i ∈ Finset.range (blockCount message),
    paddedBlock message i * r ^ (blockCount message - i)

def rfcTag (key : FixedBytes 32) (message : Bytes) : Bytes :=
  let r := clamp (key.octets.take 16)
  let s := leValue (key.octets.drop 16)
  leOctets 16 ((polynomial r message % P + s) % 2 ^ 128)

end Stdx.Mac
