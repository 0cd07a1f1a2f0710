import Stdx.BigNumber.Barrett
import Stdx.PCurves.Curve

/-!
# Multiplication for the special primes

The parts that `p256.rs`, `p384.rs` and `p521.rs` share: the schoolbook product,
the folding of the high limbs with `u128` accumulators, the last conditional
subtractions, and the reductions modulo `n`.  An accumulator is a natural number
and the wrapping operations on it reduce modulo `2 ^ 128`.
-/

namespace Stdx.PCurves

open Stdx.Foundation
open Stdx.BigNumber

/-! ## The product -/

def product (a b : Limbs) : Limbs :=
  productRows (List.replicate (a.length + b.length) 0) a b

/-! ## Folding -/

def wrap (n : Nat) : Nat := n % 2 ^ 128

def ctSelectU128 (a b : Nat) (choice : Bool) : Nat :=
  let mask := if choice then 2 ^ 128 - 1 else 0
  (a &&& mask) ||| (b &&& (2 ^ 128 - 1 - mask))

def carryPass (carry : Nat) : List Nat → List Nat
  | [] => []
  | [top] => [wrap (top + carry)]
  | r :: rest =>
    let r := wrap (r + carry)
    r % 2 ^ 64 :: carryPass (r / 2 ^ 64) rest

/-- `r[i] += w * c[i]` -/
def addMul (r : List Nat) (w : Nat) (c : Limbs) : List Nat :=
  List.zipWith (fun x y => wrap (x + wrap (w * y.toNat))) r c

def foldPass (c0 : Limbs) (r : List Nat) : List Nat :=
  let r := carryPass 0 r
  let top := r.getLastD 0
  let residual := top / 2 ^ 64
  let needReduce := residual != 0
  let reduced := addMul (r.dropLast ++ [top % 2 ^ 64]) residual c0
  List.zipWith (fun x y => ctSelectU128 x y needReduce) reduced r

def foldProduct (coeffs : List Limbs) (prod : Limbs) : List Nat :=
  let count := coeffs.length
  forRange 0 count
    (fun i r =>
      let w := (prod.getD (count + i) 0).toNat
      let c := coeffs.getD i []
      forRange 0 4 (fun _ => foldPass (coeffs.getD 0 [])) (addMul r w c))
    ((prod.take count).map UInt64.toNat)

section Reductions

variable {BITS LIMBS : Nat}

def subtractRepeatedly (modulus : Uint BITS LIMBS) (count : Nat)
    (x : Uint BITS LIMBS) : Uint BITS LIMBS :=
  forRange 0 count
    (fun _ result =>
      let (sub, borrow) := result.subRaw modulus
      Uint.ctSelect sub result (borrow == 0))
    x

def fastMulMod (coeffs : List Limbs) (modulus a b : Uint BITS LIMBS) :
    Uint BITS LIMBS :=
  let r := foldProduct coeffs (product a.limbs b.limbs)
  subtractRepeatedly modulus 8
    ⟨(List.range LIMBS).map fun i => UInt64.ofNat (r.getD i 0), by simp⟩

def reduceMod (modulus value : Uint BITS LIMBS) : Uint BITS LIMBS :=
  let (subValue, _) := value.subRaw modulus
  Uint.ctSelect subValue value (value.ctGe modulus)

/-- A Barrett multiplication with a stored reciprocal.  Its assertions hold on
reduced operands; where one fails this is zero. -/
def barrettMul (debug : Bool) (W : Nat) (modulus : Uint BITS LIMBS) (mu : Limbs)
    (a b : Uint BITS LIMBS) : Uint BITS LIMBS :=
  (Uint.mulModBarrettW debug W a b modulus mu).getD Uint.ZERO

end Reductions

end Stdx.PCurves
