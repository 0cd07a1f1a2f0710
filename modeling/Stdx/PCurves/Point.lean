import Stdx.PCurves.Curve

/-!
# Points and keys

The field elements, the points and the key types of `crypto/src/p_curves/p_curves.rs`.  A
secret key holds the scalar with the point it was derived from, as `SecretKey::from_bytes`
leaves them.
-/

namespace Stdx.PCurves

open Stdx.Foundation Stdx.BigNumber

/-! ## Field elements -/

structure FieldElement (C : Curve) where
  uint : C.U
  deriving DecidableEq

variable {C : Curve}

namespace FieldElement

def zero : FieldElement C := ⟨Uint.ZERO⟩

def one : FieldElement C := ⟨Uint.ONE⟩

def isZero (a : FieldElement C) : Bool := a.uint.isZero

def add (a b : FieldElement C) : FieldElement C := ⟨a.uint.addMod b.uint C.MODULUS_P⟩

def sub (a b : FieldElement C) : FieldElement C := ⟨a.uint.subMod b.uint C.MODULUS_P⟩

def double (a : FieldElement C) : FieldElement C := ⟨a.uint.doubleMod C.MODULUS_P⟩

def mul (a b : FieldElement C) : FieldElement C := ⟨C.fieldMul a.uint b.uint⟩

def square (a : FieldElement C) : FieldElement C := a.mul a

def triple (a : FieldElement C) : FieldElement C := a.double.add a

def fieldPow (base exponent : C.U) : Nat → C.U → C.U
  | 0, result => result
  | i + 1, result =>
    let result := C.fieldMul result result
    fieldPow base exponent i (if exponent.bit i then C.fieldMul result base else result)

def pow (a : FieldElement C) (exponent : C.U) : FieldElement C :=
  ⟨fieldPow a.uint exponent C.FIELD_BITS Uint.ONE⟩

def invert (a : FieldElement C) : Option (FieldElement C) := some (a.pow C.P_MINUS_TWO)

def select (a b : FieldElement C) (choice : Bool) : FieldElement C :=
  ⟨Uint.ctSelect a.uint b.uint choice⟩

end FieldElement

/-! ## Points -/

structure AffinePoint (C : Curve) where
  x : FieldElement C
  y : FieldElement C
  infinity : Bool
  deriving DecidableEq

structure ProjectivePoint (C : Curve) where
  x : FieldElement C
  y : FieldElement C
  z : FieldElement C

namespace AffinePoint

def GENERATOR : AffinePoint C := ⟨⟨C.GENERATOR_X⟩, ⟨C.GENERATOR_Y⟩, false⟩

def isOnCurve (point : AffinePoint C) : Bool :=
  if point.infinity then false
  else
    let x2 := point.x.square
    let x3 := x2.mul point.x
    let rhs := (x3.sub point.x.triple).add ⟨C.CURVE_B⟩
    decide (point.y.square = rhs)

def new (x y : FieldElement C) : Option (AffinePoint C) :=
  let point : AffinePoint C := ⟨x, y, false⟩
  if point.isOnCurve then some point else none

def toUncompressedBytes (point : AffinePoint C) : FixedBytes (1 + 2 * C.FIELD_BYTES) :=
  ⟨[0x04] ++ (writeBe point.x.uint C.FIELD_BYTES).octets ++
    (writeBe point.y.uint C.FIELD_BYTES).octets, by
    simp [FixedBytes.length_eq]
    omega⟩

end AffinePoint

namespace ProjectivePoint

def IDENTITY : ProjectivePoint C := ⟨.zero, .one, .zero⟩

def isIdentity (p : ProjectivePoint C) : Bool := p.z.isZero

def select (a b : ProjectivePoint C) (choice : Bool) : ProjectivePoint C :=
  ⟨.select a.x b.x choice, .select a.y b.y choice, .select a.z b.z choice⟩

def toAffine (p : ProjectivePoint C) : Option (AffinePoint C) := do
  if p.isIdentity then none
  else
    let zInv ← p.z.invert
    AffinePoint.new (p.x.mul zInv) (p.y.mul zInv)

def addMixed (p : ProjectivePoint C) (rhs : AffinePoint C) : ProjectivePoint C :=
  if rhs.infinity then p
  else
    let b : FieldElement C := ⟨C.CURVE_B⟩
    let xx := p.x.mul rhs.x
    let yy := p.y.mul rhs.y
    let xyPairs := ((p.x.add p.y).mul (rhs.x.add rhs.y)).sub (xx.add yy)
    let yzPairs := (rhs.y.mul p.z).add p.y
    let xzPairs := (rhs.x.mul p.z).add p.x
    let bzPart := xzPairs.sub (b.mul p.z)
    let bz3Part := bzPart.triple
    let yyMBzz3 := yy.sub bz3Part
    let yyPBzz3 := yy.add bz3Part
    let z3 := p.z.triple
    let bxzPart := (b.mul xzPairs).sub (z3.add xx)
    let bxz3Part := bxzPart.triple
    let xx3MZz3 := xx.triple.sub z3
    ⟨(yyPBzz3.mul xyPairs).sub (yzPairs.mul bxz3Part),
      (yyPBzz3.mul yyMBzz3).add (xx3MZz3.mul bxz3Part),
      (yyMBzz3.mul yzPairs).add (xyPairs.mul xx3MZz3)⟩

def double (p : ProjectivePoint C) : ProjectivePoint C :=
  let b : FieldElement C := ⟨C.CURVE_B⟩
  let xx := p.x.square
  let yy := p.y.square
  let zz := p.z.square
  let xy2 := (p.x.mul p.y).double
  let xz2 := (p.x.mul p.z).double
  let bzzPart := (b.mul zz).sub xz2
  let bzz3Part := bzzPart.triple
  let yyMBzz3 := yy.sub bzz3Part
  let yyPBzz3 := yy.add bzz3Part
  let yFrag := yyPBzz3.mul yyMBzz3
  let xFrag := yyMBzz3.mul xy2
  let zz3 := zz.triple
  let bxz2Part := (b.mul xz2).sub (zz3.add xx)
  let bxz6Part := bxz2Part.triple
  let xx3MZz3 := xx.triple.sub zz3
  let y := yFrag.add (xx3MZz3.mul bxz6Part)
  let yz2 := (p.y.mul p.z).double
  let x := xFrag.sub (bxz6Part.mul yz2)
  let z := (yz2.mul yy).double.double
  ⟨x, y, z⟩

end ProjectivePoint

/-! ## Scalars -/

structure Scalar (C : Curve) where
  uint : C.U
  deriving DecidableEq

namespace Scalar

def fromSlice (bytes : Bytes) : Option (Scalar C) :=
  if bytes.length ≠ C.FIELD_BYTES then none
  else
    let value : C.U := readBe bytes
    if value.isZero || value.ctGe C.MODULUS_N then none else some ⟨value⟩

def fromBytes (bytes : C.FieldBytes) : Option (Scalar C) := fromSlice bytes.octets

def toBytes (scalar : Scalar C) : C.FieldBytes := writeBe scalar.uint C.FIELD_BYTES

theorem toBytes_of_fromBytes {bytes : C.FieldBytes} {scalar : Scalar C}
    (h : fromBytes bytes = some scalar) : scalar.toBytes = bytes := by
  unfold fromBytes fromSlice at h
  rw [if_neg (not_not.mpr bytes.length_eq)] at h
  simp only at h
  split at h
  · simp at h
  · obtain rfl := Option.some.inj h
    exact writeBe_readBe C.fieldBytes_le bytes

end Scalar

def scalarMulFrom (base : AffinePoint C) (scalar : Scalar C) :
    Nat → ProjectivePoint C → ProjectivePoint C
  | 0, acc => acc
  | bit + 1, acc =>
    let acc := acc.double
    let candidate := acc.addMixed base
    scalarMulFrom base scalar bit (.select candidate acc (scalar.uint.bit bit))

def scalarMulAffine (base : AffinePoint C) (scalar : Scalar C) : ProjectivePoint C :=
  scalarMulFrom base scalar C.FIELD_BITS .IDENTITY

def scalarMulGenerator (scalar : Scalar C) : ProjectivePoint C :=
  scalarMulAffine AffinePoint.GENERATOR scalar

/-! ## Keys -/

inductive EllipticCurveError where
  | invalidKey
  | unspecified
  deriving DecidableEq, Repr

structure SecretKey (C : Curve) where
  scalar : Scalar C
  publicPoint : AffinePoint C
  parsed : Scalar.fromBytes scalar.toBytes = some scalar
  derived : (scalarMulGenerator scalar).toAffine = some publicPoint

structure PublicKey (C : Curve) where
  point : AffinePoint C
  deriving DecidableEq

def PublicKey.toBytes (key : PublicKey C) : FixedBytes (1 + 2 * C.FIELD_BYTES) :=
  key.point.toUncompressedBytes

namespace SecretKey

def fromBytes (key : C.FieldBytes) : Except EllipticCurveError (SecretKey C) :=
  match hscalar : Scalar.fromBytes key with
  | none => .error .invalidKey
  | some scalar =>
    match hpoint : (scalarMulGenerator scalar).toAffine with
    | none => .error .unspecified
    | some point =>
      .ok ⟨scalar, point, by rw [Scalar.toBytes_of_fromBytes hscalar, hscalar], hpoint⟩

def publicKey (key : SecretKey C) : PublicKey C := ⟨key.publicPoint⟩

def toBytes (key : SecretKey C) : C.FieldBytes := key.scalar.toBytes

theorem fromBytes_toBytes (key : SecretKey C) : fromBytes key.toBytes = .ok key := by
  unfold fromBytes
  split
  · rename_i hnone
    rw [toBytes, key.parsed] at hnone
    simp at hnone
  · rename_i scalar hscalar
    rw [toBytes, key.parsed] at hscalar
    obtain rfl := Option.some.inj hscalar
    split
    · rename_i hnone
      rw [key.derived] at hnone
      simp at hnone
    · rename_i point hpoint
      rw [key.derived] at hpoint
      obtain rfl := Option.some.inj hpoint
      rfl

theorem toBytes_fromBytes {bytes : C.FieldBytes} {key : SecretKey C}
    (h : fromBytes bytes = .ok key) : key.toBytes = bytes := by
  unfold fromBytes at h
  split at h
  · simp at h
  · rename_i scalar hscalar
    split at h
    · simp at h
    · simp only [Except.ok.injEq] at h
      rw [← h]
      exact Scalar.toBytes_of_fromBytes hscalar

end SecretKey

end Stdx.PCurves
