import Mathlib
import Stdx.Cipher.Aes
import Stdx.Foundation.Octets

/-!
# AES-GCM

The portable path of `crypto/src/aes/aes_gcm.rs` and the authenticator of `ghash.rs`.
The length field of the authenticator wraps at 64 bits, as the multiplication does in a
release build.
-/

namespace Stdx.Cipher

open Stdx.Foundation

inductive AeadError where
  | invalidCiphertext
  | invalidNonce
deriving DecidableEq, Repr

namespace Gcm

open Aes

local instance neZero_words : NeZero 4 := ⟨by decide⟩

def GCM_MAX_LEN : Nat := (U32_MAX - 1) * 16

/-! ## Multiplication -/

/-- A product without carries, of words with holes. -/
def bmul32 (x y : UInt32) : UInt32 :=
  let x0 : UInt32 := x &&& (0x11111111 : UInt32)
  let x1 : UInt32 := x &&& (0x22222222 : UInt32)
  let x2 : UInt32 := x &&& (0x44444444 : UInt32)
  let x3 : UInt32 := x &&& (0x88888888 : UInt32)
  let y0 : UInt32 := y &&& (0x11111111 : UInt32)
  let y1 : UInt32 := y &&& (0x22222222 : UInt32)
  let y2 : UInt32 := y &&& (0x44444444 : UInt32)
  let y3 : UInt32 := y &&& (0x88888888 : UInt32)
  let z0 := (x0 * y0) ^^^ (x1 * y3) ^^^ (x2 * y2) ^^^ (x3 * y1)
  let z1 := (x0 * y1) ^^^ (x1 * y0) ^^^ (x2 * y3) ^^^ (x3 * y2)
  let z2 := (x0 * y2) ^^^ (x1 * y1) ^^^ (x2 * y0) ^^^ (x3 * y3)
  let z3 := (x0 * y3) ^^^ (x1 * y2) ^^^ (x2 * y1) ^^^ (x3 * y0)
  (z0 &&& (0x11111111 : UInt32)) ||| (z1 &&& (0x22222222 : UInt32)) |||
    (z2 &&& (0x44444444 : UInt32)) ||| (z3 &&& (0x88888888 : UInt32))

def rev32 (x : UInt32) : UInt32 :=
  let swap := fun (mask n x : UInt32) => ((x &&& mask) <<< n) ||| ((x >>> n) &&& mask)
  let x := swap 0x55555555 1 x
  let x := swap 0x33333333 2 x
  let x := swap 0x0F0F0F0F 4 x
  let x := swap 0x00FF00FF 8 x
  rotateRight x 16

def beWord (octets : Bytes) (i : Nat) : UInt32 :=
  UInt32.ofNat (beValue ((octets.drop i).take 4))

def factors (w : Fin 4 → UInt32) : Vector UInt32 18 :=
  let r := fun i => rev32 (w i)
  #v[w 0, w 1, w 2, w 3, w 0 ^^^ w 1, w 2 ^^^ w 3, w 0 ^^^ w 2, w 1 ^^^ w 3,
    w 0 ^^^ w 1 ^^^ w 2 ^^^ w 3,
    r 0, r 1, r 2, r 3, r 0 ^^^ r 1, r 2 ^^^ r 3, r 0 ^^^ r 2, r 1 ^^^ r 3,
    r 0 ^^^ r 1 ^^^ r 2 ^^^ r 3]

def reduceWord (zw : Vector UInt32 8) (i : Fin 4) : Vector UInt32 8 :=
  let lw := zw[i.val]
  let zw := zw.set (i + 4) (zw[i.val + 4] ^^^ lw ^^^ (lw >>> 1) ^^^ (lw >>> 2) ^^^ (lw >>> 7))
  zw.set (i + 3) (zw[i.val + 3] ^^^ (lw <<< 31) ^^^ (lw <<< 30) ^^^ (lw <<< 25))

def gf128Mul (x h : FixedBytes 16) : FixedBytes 16 :=
  let words := fun (octets : Bytes) (i : Fin 4) => beWord octets (12 - 4 * i)
  let e := Vector.zipWith bmul32 (factors (words x.octets)) (factors (words h.octets))
  let e := e.set 4 (e[4] ^^^ e[0] ^^^ e[1])
  let e := e.set 5 (e[5] ^^^ e[2] ^^^ e[3])
  let e := e.set 8 (e[8] ^^^ e[6] ^^^ e[7])
  let e := e.set 13 (e[13] ^^^ e[9] ^^^ e[10])
  let e := e.set 14 (e[14] ^^^ e[11] ^^^ e[12])
  let e := e.set 17 (e[17] ^^^ e[15] ^^^ e[16])
  let d0 := e[0]
  let d1 := e[4] ^^^ (rev32 e[9] >>> 1)
  let d2 := e[1] ^^^ e[0] ^^^ e[2] ^^^ e[6] ^^^ (rev32 e[13] >>> 1)
  let d3 := e[4] ^^^ e[5] ^^^ e[8] ^^^ (rev32 (e[10] ^^^ e[9] ^^^ e[11] ^^^ e[15]) >>> 1)
  let d4 := e[2] ^^^ e[1] ^^^ e[3] ^^^ e[7] ^^^ (rev32 (e[13] ^^^ e[14] ^^^ e[17]) >>> 1)
  let d5 := e[5] ^^^ (rev32 (e[11] ^^^ e[10] ^^^ e[12] ^^^ e[16]) >>> 1)
  let d6 := e[3] ^^^ (rev32 e[14] >>> 1)
  let d7 := rev32 e[12] >>> 1
  let zw := #v[d0 <<< 1, (d1 <<< 1) ||| (d0 >>> 31), (d2 <<< 1) ||| (d1 >>> 31),
    (d3 <<< 1) ||| (d2 >>> 31), (d4 <<< 1) ||| (d3 >>> 31), (d5 <<< 1) ||| (d4 >>> 31),
    (d6 <<< 1) ||| (d5 >>> 31), (d7 <<< 1) ||| (d6 >>> 31)]
  let zw : Vector UInt32 (4 + 4) := reduceWord (reduceWord (reduceWord (reduceWord zw 0) 1) 2) 3
  ⟨fixedOctets 4 zw[7].toNat ++ fixedOctets 4 zw[6].toNat ++ fixedOctets 4 zw[5].toNat ++
    fixedOctets 4 zw[4].toNat, by simp⟩

/-! ## The authenticator -/

def xorBlock (a b : FixedBytes 16) : FixedBytes 16 :=
  ⟨List.zipWith (· ^^^ ·) a.octets b.octets, by simp [a.length_eq, b.length_eq]⟩

def ghashBlock (state h block : FixedBytes 16) : FixedBytes 16 :=
  gf128Mul (xorBlock state block) h

def chunkBlock (data : Bytes) : FixedBytes 16 :=
  ⟨data.take 16 ++ List.replicate (16 - data.length) 0, by simp; omega⟩

def ghashBlocks (h : FixedBytes 16) : Nat → FixedBytes 16 → Bytes → FixedBytes 16
  | 0, state, _ => state
  | count + 1, state, data =>
    ghashBlocks h count (ghashBlock state h (chunkBlock data)) (data.drop 16)

def ghashUpdate (state h : FixedBytes 16) (data : Bytes) : FixedBytes 16 :=
  let chunks := data.length / 16
  let state := ghashBlocks h chunks state data
  let rem := data.drop (16 * chunks)
  if rem = [] then state else ghashBlock state h (chunkBlock rem)

def lenBlock (aad ciphertext : Bytes) : FixedBytes 16 :=
  ⟨fixedOctets 8 (aad.length * 8 % 2 ^ 64) ++ fixedOctets 8 (ciphertext.length * 8 % 2 ^ 64),
    by simp⟩

def computeTag (h : FixedBytes 16) (aad ciphertext : Bytes) (ej0 : FixedBytes 16) :
    FixedBytes 16 :=
  let state := ghashUpdate (.zeroed 16) h aad
  let state := ghashUpdate state h ciphertext
  let state := ghashBlock state h (lenBlock aad ciphertext)
  xorBlock state ej0

end Gcm

/-! ## Encryption -/

open Aes Gcm

structure AesGcm (N : Nat) where
  roundKeys : Array KeyWord
  h : FixedBytes 16

namespace AesGcm

variable {N : Nat}

def new (key : FixedBytes (keySize N)) : AesGcm N :=
  let roundKeys := expandKey N key
  ⟨roundKeys, encryptBlock N roundKeys (.zeroed 16)⟩

def counterBlock (nonce : FixedBytes 12) (last : UInt8) : FixedBytes 16 :=
  ⟨nonce.octets ++ [0, 0, 0, last], by simp [nonce.length_eq]⟩

def encryptInPlaceSoft (gcm : AesGcm N) (inOut : Bytes) (nonce : FixedBytes 12)
    (aad : Bytes) : Bytes × Bytes :=
  let ej0 := encryptBlock N gcm.roundKeys (counterBlock nonce 1)
  let inOut := (xorKeystreamSoft N gcm.roundKeys (counterBlock nonce 2) inOut).2
  ((computeTag gcm.h aad inOut ej0).octets, inOut)

def decryptInPlaceSoft (gcm : AesGcm N) (inOut : Bytes) (nonce : FixedBytes 12)
    (aad : Bytes) (tag : FixedBytes 16) : Except AeadError Unit × Bytes :=
  let ej0 := encryptBlock N gcm.roundKeys (counterBlock nonce 1)
  let expectedTag := computeTag gcm.h aad inOut ej0
  if tag.octets ≠ expectedTag.octets then (.error .invalidCiphertext, inOut)
  else (.ok (), (xorKeystreamSoft N gcm.roundKeys (counterBlock nonce 2) inOut).2)

/-- `none` is the panic on a nonce or a plaintext of a wrong length. -/
def encryptInPlace (gcm : AesGcm N) (inOut nonce aad : Bytes) : Option (Bytes × Bytes) :=
  if hnonce : nonce.length = 12 then
    if inOut.length ≤ GCM_MAX_LEN then
      some (gcm.encryptInPlaceSoft inOut ⟨nonce, hnonce⟩ aad)
    else none
  else none

def decryptInPlace (gcm : AesGcm N) (inOut nonce aad tag : Bytes) :
    Except AeadError Unit × Bytes :=
  if hnonce : nonce.length = 12 then
    if htag : tag.length = 16 then
      if inOut.length > GCM_MAX_LEN then (.error .invalidCiphertext, inOut)
      else gcm.decryptInPlaceSoft inOut ⟨nonce, hnonce⟩ aad ⟨tag, htag⟩
    else (.error .invalidCiphertext, inOut)
  else (.error .invalidNonce, inOut)

end AesGcm

end Stdx.Cipher
