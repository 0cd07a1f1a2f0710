import Mathlib
import Stdx.MlKem.Codec

/-!
# ML-KEM

The key encapsulation of `crypto/src/mlkem/mlkem.rs`.  The hash functions are a
parameter, an extendable one a stream of octets.  Rejection sampling of the matrix
need not end on such a stream, so it carries fuel and `none` is a call that has
not returned.
-/

namespace Stdx.MlKem

open Stdx.Foundation

def SHAKE128_RATE : Nat := 168

inductive MlKemError where
  | InvalidKey
deriving DecidableEq

structure Sha3 where
  hashH : Bytes → FixedBytes 32
  hashG : Bytes → FixedBytes 64
  shake128 : Bytes → Nat → UInt8
  shake256 : Bytes → Nat → UInt8

def squeeze (stream : Nat → UInt8) (start len : Nat) : Bytes :=
  (List.range len).map fun i => stream (start + i)

/-! ## Sampling -/

structure RejState where
  out : List Int
  pos : Nat

def rejStep (room : Nat) (buf : Bytes) (s : RejState) : RejState :=
  let b0 := (buf.getD s.pos 0).toNat
  let b1 := (buf.getD (s.pos + 1) 0).toNat
  let b2 := (buf.getD (s.pos + 2) 0).toNat
  let val0 : Int := ((b0 ||| b1 <<< 8) &&& 0x0fff : Nat)
  let val1 : Int := ((b1 >>> 4 ||| b2 <<< 4) &&& 0x0fff : Nat)
  let out := if val0 < Q then s.out ++ [val0] else s.out
  ⟨if out.length < room ∧ val1 < Q then out ++ [val1] else out, s.pos + 3⟩

def rejUniform (room : Nat) (buf : Bytes) : List Int :=
  (whileLoop (fun s => decide (s.out.length < room ∧ s.pos + 3 ≤ buf.length))
    (rejStep room buf) (buf.length + 1) ⟨[], 0⟩).out

structure UniformState where
  coeffs : List Int
  blocks : Nat

def uniformStep (stream : Nat → UInt8) (s : UniformState) : UniformState :=
  let block := squeeze stream (SHAKE128_RATE * s.blocks) SHAKE128_RATE
  ⟨s.coeffs ++ rejUniform (N - s.coeffs.length) block, s.blocks + 1⟩

def uniformPoly (H : Sha3) (fuel : Nat) (seed : Bytes) (x y : UInt8) : Option Poly :=
  let s := whileLoop (fun s => decide (s.coeffs.length < N))
    (uniformStep (H.shake128 (seed ++ [x, y]))) fuel ⟨[], 0⟩
  if h : s.coeffs.length = N then some ⟨s.coeffs, h⟩ else none

def genMatrix (H : Sha3) (fuel K : Nat) (seed : Bytes) (transpose : Bool) :
    Option (List (PolyVec K)) :=
  forCollect K fun i => do
    let row ← forCollect K fun j =>
      if transpose then uniformPoly H fuel seed (UInt8.ofNat i) (UInt8.ofNat j)
      else uniformPoly H fuel seed (UInt8.ofNat j) (UInt8.ofNat i)
    some (.ofFn K fun j => row.getD j .zero)

def load32 (input : Nat → UInt8) : Nat :=
  (input 0).toNat ||| (input 1).toNat <<< 8 ||| (input 2).toNat <<< 16 |||
    (input 3).toNat <<< 24

def cbd2 (buf : Bytes) : Poly :=
  .ofChunks 8 (N / 8) (fun i =>
    let t := load32 fun k => buf.getD (4 * i + k) 0
    let d := (t &&& 0x55555555) + (t >>> 1 &&& 0x55555555)
    (List.range 8).map fun j =>
      let a : Int := (d >>> (4 * j) &&& 0x3 : Nat)
      let b : Int := (d >>> (4 * j + 2) &&& 0x3 : Nat)
      a - b) eighths fun _ _ => by simp

def polyGetnoise (H : Sha3) (seed : Bytes) (nonce : UInt8) (_eta : Nat) : Poly :=
  cbd2 (squeeze (H.shake256 (seed ++ [nonce])) 0 128)

def noiseVec (H : Sha3) (K : Nat) (seed : Bytes) (offset eta : Nat) : PolyVec K :=
  .ofFn K fun index => polyGetnoise H seed (UInt8.ofNat (offset + index)) eta

/-! ## Key and ciphertext layout -/

variable {K : Nat}

def packPk (pk : PolyVec K) (seed : Bytes) : Bytes := polyvecTobytes pk ++ seed

def unpackPk (K : Nat) (packed : Bytes) : PolyVec K × Bytes :=
  (polyvecFrombytes K (packed.take (polyvecBytes K)),
   (packed.drop (polyvecBytes K)).take 32)

def packSk (sk : PolyVec K) : Bytes := polyvecTobytes sk

def unpackSk (K : Nat) (packed : Bytes) : PolyVec K := polyvecFrombytes K packed

def packCiphertext (params : MlKemParams K) (b : PolyVec K) (v : Poly) : Bytes :=
  polyvecCompress params b ++ polyCompress params v

def unpackCiphertext (params : MlKemParams K) (packed : Bytes) : PolyVec K × Poly :=
  (polyvecDecompress params (packed.take params.polyveccompressedbytes),
   polyDecompress params ((packed.drop params.polyveccompressedbytes).take
     params.polycompressedbytes))

/-! ## Public-key encryption -/

def keySeeds (H : Sha3) (K : Nat) (coins : Bytes) : Bytes × Bytes :=
  let seedOutput := (H.hashG (coins ++ [UInt8.ofNat K])).octets
  (seedOutput.take 32, (seedOutput.drop 32).take 32)

def indcpaKeypairDerand (H : Sha3) (fuel : Nat) (params : MlKemParams K)
    (coins : Bytes) : Option (Bytes × Bytes) := do
  let (publicSeed, noiseSeed) := keySeeds H K coins
  let matrix ← genMatrix H fuel K publicSeed false
  let skpv := polyvecNtt (noiseVec H K noiseSeed 0 params.eta1)
  let e := polyvecNtt (noiseVec H K noiseSeed K params.eta1)
  let pkpv := PolyVec.ofFn K fun i =>
    polyTomont (polyvecBasemulAccMontgomery (matrix.getD i (.ofFn K fun _ => .zero)) skpv)
  let pkpv := polyvecReduce (polyvecAdd pkpv e)
  some (packPk pkpv publicSeed, packSk skpv)

def encVectors (H : Sha3) (fuel : Nat) (params : MlKemParams K)
    (message publicKey coins : Bytes) : Option (PolyVec K × Poly) := do
  let (pkpv, seed) := unpackPk K publicKey
  let transposed ← genMatrix H fuel K seed true
  let k := polyFrommsg message
  let sp := polyvecNtt (noiseVec H K coins 0 params.eta1)
  let ep := noiseVec H K coins K 2
  let epp := polyGetnoise H coins (UInt8.ofNat (K + K)) 2
  let b := PolyVec.ofFn K fun i =>
    polyvecBasemulAccMontgomery (transposed.getD i (.ofFn K fun _ => .zero)) sp
  let v := polyvecBasemulAccMontgomery pkpv sp
  let b := polyvecInvnttTomont b
  let v := polyInvnttTomont v
  let b := polyvecAdd b ep
  let v := polyAdd (polyAdd v epp) k
  some (polyvecReduce b, polyReduce v)

def indcpaEnc (H : Sha3) (fuel : Nat) (params : MlKemParams K)
    (message publicKey coins : Bytes) : Option Bytes := do
  let (b, v) ← encVectors H fuel params message publicKey coins
  some (packCiphertext params b v)

def indcpaDec (params : MlKemParams K) (ciphertext secretKey : Bytes) : Bytes :=
  let (b, v) := unpackCiphertext params ciphertext
  let skpv := unpackSk K secretKey
  let mp := polyvecBasemulAccMontgomery skpv (polyvecNtt b)
  let product := polyInvnttTomont mp
  polyTomsg (polyReduce (polySub v product))

/-! ## Key encapsulation -/

def cryptoKemKeypairDerand (H : Sha3) (fuel : Nat) (params : MlKemParams K)
    (coins : FixedBytes 64) : Option (Bytes × Bytes) := do
  let (publicKey, indcpaKey) ←
    indcpaKeypairDerand H fuel params (coins.octets.take 32)
  some (indcpaKey ++ publicKey ++ (H.hashH publicKey).octets ++ coins.octets.drop 32,
    publicKey)

def cryptoKemEncDerand (H : Sha3) (fuel : Nat) (params : MlKemParams K)
    (publicKey : Bytes) (coins : FixedBytes 32) : Option (Bytes × Bytes) := do
  let buf := coins.octets ++ (H.hashH publicKey).octets
  let kr := (H.hashG buf).octets
  let ciphertext ← indcpaEnc H fuel params (buf.take 32) publicKey ((kr.drop 32).take 32)
  some (kr.take 32, ciphertext)

def rkprf (H : Sha3) (cipherKey ciphertext : Bytes) : Bytes :=
  squeeze (H.shake256 (cipherKey ++ ciphertext)) 0 32

def cmov (out value : Bytes) (cond : Bool) : Bytes :=
  let mask : UInt8 := 0 - if cond then 1 else 0
  List.zipWith (fun o v => o ^^^ (mask &&& (o ^^^ v))) out value

def cryptoKemDec (H : Sha3) (fuel : Nat) (params : MlKemParams K)
    (secretKey ciphertext : Bytes) : Option (Except MlKemError Bytes) :=
  let publicKeyOffset := indcpaSecretKeyBytes K
  let publicKeySize := publicKeyBytes K
  let size := secretKey.length
  if size ≠ secretKeySize K then some (.error .InvalidKey)
  else
    let publicKey := (secretKey.drop publicKeyOffset).take publicKeySize
    let storedHash := (secretKey.drop (size - 64)).take 32
    if (H.hashH publicKey).octets ≠ storedHash then some (.error .InvalidKey)
    else do
      let message := indcpaDec params ciphertext (secretKey.take publicKeyOffset)
      let kr := (H.hashG (message ++ storedHash)).octets
      let cmp ← indcpaEnc H fuel params message publicKey ((kr.drop 32).take 32)
      let rejection := rkprf H (secretKey.drop (size - 32)) ciphertext
      some (.ok (cmov rejection (kr.take 32) (decide (ciphertext = cmp))))

end Stdx.MlKem
