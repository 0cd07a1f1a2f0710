import Stdx.PCurves.FastMul

/-!
# P-521

The parameters of `p521.rs`.  The prime is `2 ^ 521 - 1`: the product is split
at bit 521 and the halves added.
-/

namespace Stdx.PCurves.P521

open Stdx.Foundation
open Stdx.BigNumber

def MODULUS_P : Uint 521 9 :=
  ⟨[0xffffffffffffffff, 0xffffffffffffffff, 0xffffffffffffffff,
      0xffffffffffffffff, 0xffffffffffffffff, 0xffffffffffffffff,
      0xffffffffffffffff, 0xffffffffffffffff, 0x00000000000001ff], rfl⟩

def MODULUS_N : Uint 521 9 :=
  ⟨[0xbb6fb71e91386409, 0x3bb5c9b8899c47ae, 0x7fcc0148f709a5d0,
      0x51868783bf2f966b, 0xfffffffffffffffa, 0xffffffffffffffff,
      0xffffffffffffffff, 0xffffffffffffffff, 0x00000000000001ff], rfl⟩

def N_HALF : Uint 521 9 :=
  ⟨[0x5db7db8f489c3204, 0x1ddae4dc44ce23d7, 0xbfe600a47b84d2e8,
      0x28c343c1df97cb35, 0xfffffffffffffffd, 0xffffffffffffffff,
      0xffffffffffffffff, 0xffffffffffffffff, 0x00000000000000ff], rfl⟩

def P_MINUS_TWO : Uint 521 9 :=
  ⟨[0xfffffffffffffffd, 0xffffffffffffffff, 0xffffffffffffffff,
      0xffffffffffffffff, 0xffffffffffffffff, 0xffffffffffffffff,
      0xffffffffffffffff, 0xffffffffffffffff, 0x00000000000001ff], rfl⟩

def N_MINUS_TWO : Uint 521 9 :=
  ⟨[0xbb6fb71e91386407, 0x3bb5c9b8899c47ae, 0x7fcc0148f709a5d0,
      0x51868783bf2f966b, 0xfffffffffffffffa, 0xffffffffffffffff,
      0xffffffffffffffff, 0xffffffffffffffff, 0x00000000000001ff], rfl⟩

def CURVE_B : Uint 521 9 :=
  ⟨[0xef451fd46b503f00, 0x3573df883d2c34f1, 0x1652c0bd3bb1bf07,
      0x56193951ec7e937b, 0xb8b489918ef109e1, 0xa2da725b99b315f3,
      0x929a21a0b68540ee, 0x953eb9618e1c9a1f, 0x0000000000000051], rfl⟩

def GENERATOR_X : Uint 521 9 :=
  ⟨[0xf97e7e31c2e5bd66, 0x3348b3c1856a429b, 0xfe1dc127a2ffa8de,
      0xa14b5e77efe75928, 0xf828af606b4d3dba, 0x9c648139053fb521,
      0x9e3ecb662395b442, 0x858e06b70404e9cd, 0x00000000000000c6], rfl⟩

def GENERATOR_Y : Uint 521 9 :=
  ⟨[0x88be94769fd16650, 0x353c7086a272c240, 0xc550b9013fad0761,
      0x97ee72995ef42640, 0x17afbd17273e662c, 0x98f54449579b4468,
      0x5c8a5fb42c7d1bd9, 0x39296a789a3bc004, 0x0000000000000118], rfl⟩

def N_MU : Limbs :=
    [0xcd2dad1d7f46221c, 0xe6fdc408f501c8d1, 0xee14512412385bb1,
      0x968bf1128d91dd98, 0x1a65200cffadc23d, 0x00016b9e5e1f1034,
      0x0000000000000000, 0x0000000000000000, 0x0000000000000000,
      0x0080000000000000]

def fastMulMod (a b : Uint 521 9) : Uint 521 9 :=
  let prod := product a.limbs b.limbs
  let lo : Uint 521 9 := ⟨(List.range 9).map fun j =>
    if j < 8 then prod.getD j 0 else prod.getD 8 0 &&& 0x1ff, by simp⟩
  let hi : Uint 521 9 := ⟨(List.range 9).map fun j =>
    (prod.getD (8 + j) 0 >>> 9) ||| (prod.getD (9 + j) 0 <<< 55), by simp⟩
  let (result, _) := lo.addRaw hi
  subtractRepeatedly MODULUS_P 2 result

/-- `impl Curve for P521` -/
def curve (debug : Bool) (hash : Bytes → FixedBytes 64)
    (hmac : Bytes → Bytes → FixedBytes 64) : Curve where
  BITS := 521
  LIMBS := 9
  FIELD_BITS := 521
  FIELD_BYTES := 66
  DIGEST_BYTES := 64
  MODULUS_P := MODULUS_P
  MODULUS_N := MODULUS_N
  N_HALF := N_HALF
  P_MINUS_TWO := P_MINUS_TWO
  N_MINUS_TWO := N_MINUS_TWO
  CURVE_B := CURVE_B
  GENERATOR_X := GENERATOR_X
  GENERATOR_Y := GENERATOR_Y
  fieldMul := fastMulMod
  scalarMul := barrettMul debug 20 MODULUS_N N_MU
  hash := hash
  hmac := hmac
  scalarFromDigest := fun digest => reduceMod MODULUS_N (readBe digest.octets)
  scalarFromFieldBytes := fun bytes => reduceMod MODULUS_N (readBe bytes.octets)
  fieldBytes_eq := rfl
  fieldBytes_le := by decide
  digestBytes_pos := by decide
  nonceBytes_le := by decide

end Stdx.PCurves.P521
