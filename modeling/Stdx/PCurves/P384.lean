import Stdx.PCurves.FastMul

/-!
# P-384

The parameters of `p384.rs`.  Field multiplication folds the high limbs of the
product with `2 ^ (64 * i) mod p`.
-/

namespace Stdx.PCurves.P384

open Stdx.Foundation
open Stdx.BigNumber

def MODULUS_P : Uint 384 6 :=
  ⟨[0x00000000ffffffff, 0xffffffff00000000, 0xfffffffffffffffe,
      0xffffffffffffffff, 0xffffffffffffffff, 0xffffffffffffffff], rfl⟩

def MODULUS_N : Uint 384 6 :=
  ⟨[0xecec196accc52973, 0x581a0db248b0a77a, 0xc7634d81f4372ddf,
      0xffffffffffffffff, 0xffffffffffffffff, 0xffffffffffffffff], rfl⟩

def N_HALF : Uint 384 6 :=
  ⟨[0x76760cb5666294b9, 0xac0d06d9245853bd, 0xe3b1a6c0fa1b96ef,
      0xffffffffffffffff, 0xffffffffffffffff, 0x7fffffffffffffff], rfl⟩

def P_MINUS_TWO : Uint 384 6 :=
  ⟨[0x00000000fffffffd, 0xffffffff00000000, 0xfffffffffffffffe,
      0xffffffffffffffff, 0xffffffffffffffff, 0xffffffffffffffff], rfl⟩

def N_MINUS_TWO : Uint 384 6 :=
  ⟨[0xecec196accc52971, 0x581a0db248b0a77a, 0xc7634d81f4372ddf,
      0xffffffffffffffff, 0xffffffffffffffff, 0xffffffffffffffff], rfl⟩

def CURVE_B : Uint 384 6 :=
  ⟨[0x2a85c8edd3ec2aef, 0xc656398d8a2ed19d, 0x0314088f5013875a,
      0x181d9c6efe814112, 0x988e056be3f82d19, 0xb3312fa7e23ee7e4], rfl⟩

def GENERATOR_X : Uint 384 6 :=
  ⟨[0x3a545e3872760ab7, 0x5502f25dbf55296c, 0x59f741e082542a38,
      0x6e1d3b628ba79b98, 0x8eb1c71ef320ad74, 0xaa87ca22be8b0537], rfl⟩

def GENERATOR_Y : Uint 384 6 :=
  ⟨[0x7a431d7c90ea0e5f, 0x0a60b1ce1d7e819d, 0xe9da3113b5f0b8c0,
      0xf8f41dbd289a147c, 0x5d9e98bf9292dc29, 0x3617de4a96262c6f], rfl⟩

def N_MU : Limbs :=
    [0x1313e695333ad68d, 0xa7e5f24db74f5885, 0x389cb27e0bc8d220,
      0x0000000000000000, 0x0000000000000000, 0x0000000000000000,
      0x0000000000000001]

def S6 : Limbs :=
    [0xffffffff00000001, 0x00000000ffffffff, 0x0000000000000001,
      0x0000000000000000, 0x0000000000000000, 0x0000000000000000]

def S7 : Limbs :=
    [0x0000000000000000, 0xffffffff00000001, 0x00000000ffffffff,
      0x0000000000000001, 0x0000000000000000, 0x0000000000000000]

def S8 : Limbs :=
    [0x0000000000000000, 0x0000000000000000, 0xffffffff00000001,
      0x00000000ffffffff, 0x0000000000000001, 0x0000000000000000]

def S9 : Limbs :=
    [0x0000000000000000, 0x0000000000000000, 0x0000000000000000,
      0xffffffff00000001, 0x00000000ffffffff, 0x0000000000000001]

def S10 : Limbs :=
    [0xffffffff00000001, 0x00000000ffffffff, 0x0000000000000001,
      0x0000000000000000, 0xffffffff00000001, 0x00000000ffffffff]

def S11 : Limbs :=
    [0x00000001ffffffff, 0xfffffffe00000000, 0x00000001ffffffff,
      0x0000000000000001, 0x0000000000000000, 0xffffffff00000001]

def coeffs : List Limbs := [S6, S7, S8, S9, S10, S11]

def fastMulMod (a b : Uint 384 6) : Uint 384 6 :=
  PCurves.fastMulMod coeffs MODULUS_P a b

/-- `impl Curve for P384` -/
def curve (debug : Bool) (hash : Bytes → FixedBytes 48)
    (hmac : Bytes → Bytes → FixedBytes 48) : Curve where
  BITS := 384
  LIMBS := 6
  FIELD_BITS := 384
  FIELD_BYTES := 48
  DIGEST_BYTES := 48
  MODULUS_P := MODULUS_P
  MODULUS_N := MODULUS_N
  N_HALF := N_HALF
  P_MINUS_TWO := P_MINUS_TWO
  N_MINUS_TWO := N_MINUS_TWO
  CURVE_B := CURVE_B
  GENERATOR_X := GENERATOR_X
  GENERATOR_Y := GENERATOR_Y
  fieldMul := fastMulMod
  scalarMul := barrettMul debug 14 MODULUS_N N_MU
  hash := hash
  hmac := hmac
  scalarFromDigest := fun digest => reduceMod MODULUS_N (readBe digest.octets)
  scalarFromFieldBytes := fun bytes => reduceMod MODULUS_N (readBe bytes.octets)
  fieldBytes_eq := rfl
  fieldBytes_le := by decide
  digestBytes_pos := by decide
  nonceBytes_le := by decide

end Stdx.PCurves.P384
