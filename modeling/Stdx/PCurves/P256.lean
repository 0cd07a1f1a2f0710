import Mathlib
import Stdx.PCurves.FastMul

/-!
# P-256

The parameters of `p256.rs`.  Field multiplication folds the high limbs of the
product with `2 ^ (64 * i) mod p`.
-/

namespace Stdx.PCurves.P256

open Stdx.Foundation
open Stdx.BigNumber

def MODULUS_P : Uint 256 4 :=
  ⟨[0xffffffffffffffff, 0x00000000ffffffff, 0x0000000000000000,
      0xffffffff00000001], rfl⟩

def MODULUS_N : Uint 256 4 :=
  ⟨[0xf3b9cac2fc632551, 0xbce6faada7179e84, 0xffffffffffffffff,
      0xffffffff00000000], rfl⟩

def N_HALF : Uint 256 4 :=
  ⟨[0x79dce5617e3192a8, 0xde737d56d38bcf42, 0x7fffffffffffffff,
      0x7fffffff80000000], rfl⟩

def P_MINUS_TWO : Uint 256 4 :=
  ⟨[0xfffffffffffffffd, 0x00000000ffffffff, 0x0000000000000000,
      0xffffffff00000001], rfl⟩

def N_MINUS_TWO : Uint 256 4 :=
  ⟨[0xf3b9cac2fc63254f, 0xbce6faada7179e84, 0xffffffffffffffff,
      0xffffffff00000000], rfl⟩

def CURVE_B : Uint 256 4 :=
  ⟨[0x3bce3c3e27d2604b, 0x651d06b0cc53b0f6, 0xb3ebbd55769886bc,
      0x5ac635d8aa3a93e7], rfl⟩

def GENERATOR_X : Uint 256 4 :=
  ⟨[0xf4a13945d898c296, 0x77037d812deb33a0, 0xf8bce6e563a440f2,
      0x6b17d1f2e12c4247], rfl⟩

def GENERATOR_Y : Uint 256 4 :=
  ⟨[0xcbb6406837bf51f5, 0x2bce33576b315ece, 0x8ee7eb4a7c0f9e16,
      0x4fe342e2fe1a7f9b], rfl⟩

def N_MU : Limbs :=
    [0x012ffd85eedf9bfe, 0x43190552df1a6c21, 0xfffffffeffffffff,
      0x00000000ffffffff, 0x0000000000000001]

def S4 : Limbs :=
    [0x0000000000000001, 0xffffffff00000000, 0xffffffffffffffff,
      0x00000000fffffffe]

def S5 : Limbs :=
    [0x00000000ffffffff, 0x0000000100000001, 0xfffffffeffffffff,
      0xfffffffe00000000]

def S6 : Limbs :=
    [0xfffffffefffffffe, 0x00000002ffffffff, 0x0000000000000002,
      0xfffffffe00000001]

def S7 : Limbs :=
    [0xfffffffeffffffff, 0xfffffffffffffffe, 0x0000000200000000,
      0x0000000000000003]

def coeffs : List Limbs := [S4, S5, S6, S7]

def fastMulMod (a b : Uint 256 4) : Uint 256 4 :=
  PCurves.fastMulMod coeffs MODULUS_P a b

/-- `impl Curve for P256` -/
def curve (debug : Bool) (hash : Bytes → FixedBytes 32)
    (hmac : Bytes → Bytes → FixedBytes 32) : Curve where
  BITS := 256
  LIMBS := 4
  FIELD_BITS := 256
  FIELD_BYTES := 32
  DIGEST_BYTES := 32
  MODULUS_P := MODULUS_P
  MODULUS_N := MODULUS_N
  N_HALF := N_HALF
  P_MINUS_TWO := P_MINUS_TWO
  N_MINUS_TWO := N_MINUS_TWO
  CURVE_B := CURVE_B
  GENERATOR_X := GENERATOR_X
  GENERATOR_Y := GENERATOR_Y
  fieldMul := fastMulMod
  scalarMul := barrettMul debug 10 MODULUS_N N_MU
  hash := hash
  hmac := hmac
  scalarFromDigest := fun digest => reduceMod MODULUS_N (readBe digest.octets)
  scalarFromFieldBytes := fun bytes => reduceMod MODULUS_N (readBe bytes.octets)
  fieldBytes_eq := rfl
  fieldBytes_le := by decide
  digestBytes_pos := Nat.succ_pos 31
  nonceBytes_le := by decide

end Stdx.PCurves.P256
