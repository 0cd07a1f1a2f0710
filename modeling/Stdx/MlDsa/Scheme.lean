import Stdx.Foundation.LittleEndian
import Stdx.MlDsa.Codec

/-!
# ML-DSA

Key generation, signing and verification of `crypto/src/mldsa/mldsa.rs`.  SHAKE is
a parameter: what has been absorbed determines a stream of octets.  The rejection
loops of the samplers read such a stream to no fixed end, so they carry fuel and
`none` is a call that has not returned.  Vectors are functions of the index.
-/

namespace Stdx.MlDsa

open Stdx.Foundation

def CONTEXT_MAX_LEN : Nat := 255
def MAX_SIGN_ITERATIONS : Nat := 814

structure Shake where
  shake128 : Bytes → Nat → UInt8
  shake256 : Bytes → Nat → UInt8

def squeeze (stream : Nat → UInt8) (start len : Nat) : Bytes :=
  (List.range len).map fun i => stream (start + i)

/-! ## Sampling -/

structure SampleState where
  coeffs : List Nat
  pos : Nat

/-- The loops below end when `j >= N`; blocks are squeezed in order, so the position
in the stream is all that `buf` and `off` keep. -/
def sampled (d : Domain) (s : SampleState) : Option (PolyIn d) :=
  if h : s.coeffs.length = N then some ⟨s.coeffs, h⟩ else none

def sampleNttStep (stream : Nat → UInt8) (s : SampleState) : SampleState :=
  let octet := fun k => (stream (s.pos + k)).toNat
  let v := (octet 0 ||| octet 1 <<< 8 ||| octet 2 <<< 16) &&& 0x7fffff
  ⟨if v < Q then s.coeffs ++ [fieldToMontgomery v] else s.coeffs, s.pos + 3⟩

def sampleNtt (H : Shake) (fuel : Nat) (rho : Bytes) (s r : UInt8) : Option NttPoly :=
  sampled .ntt (whileLoop (fun st => decide (st.coeffs.length < N))
    (sampleNttStep (H.shake128 (rho ++ [s, r]))) fuel ⟨[], 0⟩)

def coeffFromHalfByte (b eta : Nat) : Option Nat :=
  match eta with
  | 2 => if b > 14 then none else some (fieldSubToMontgomery 2 (b % 5))
  | 4 => if b > 8 then none else some (fieldSubToMontgomery 4 b)
  | _ => none

def pushCoeff (coeffs : List Nat) (c : Option Nat) : List Nat :=
  match c with
  | some c => if coeffs.length < N then coeffs ++ [c] else coeffs
  | none => coeffs

def sampleBoundedStep (stream : Nat → UInt8) (eta : Nat) (s : SampleState) : SampleState :=
  let octet := (stream s.pos).toNat
  let z0 := octet &&& 0x0f
  let z1 := octet >>> 4
  ⟨pushCoeff (pushCoeff s.coeffs (coeffFromHalfByte z0 eta)) (coeffFromHalfByte z1 eta),
   s.pos + 1⟩

def sampleBoundedPoly (H : Shake) (fuel : Nat) (rho : Bytes) (r : UInt8) (eta : Nat) :
    Option Poly :=
  sampled .ring (whileLoop (fun st => decide (st.coeffs.length < N))
    (sampleBoundedStep (H.shake256 (rho ++ [r, 0])) eta) fuel ⟨[], 0⟩)

def nextIndex (stream : Nat → UInt8) (i : Nat) : Nat → Nat → Option (Nat × Nat)
  | 0, _ => none
  | fuel + 1, pos =>
    if (stream pos).toNat ≤ i then some ((stream pos).toNat, pos + 1)
    else nextIndex stream i fuel (pos + 1)

structure BallState where
  coeffs : List Nat
  signs : Nat
  pos : Nat

def ballStep (c : List Nat) (signs i j : Nat) : List Nat :=
  (c.set i (c.getD j 0)).set j (if signs &&& 1 = 0 then ONE else MINUS_ONE)

/-- `for i in (N - tau)..N`, `remaining` iterations before the end. -/
def ballLoop (stream : Nat → UInt8) (fuel : Nat) : Nat → BallState → Option (List Nat)
  | 0, s => some s.coeffs
  | remaining + 1, s => do
      let i := N - (remaining + 1)
      let (j, pos) ← nextIndex stream i fuel s.pos
      ballLoop stream fuel remaining ⟨ballStep s.coeffs s.signs i j, s.signs >>> 1, pos⟩

def sampleInBall (H : Shake) (fuel : Nat) (rho : Bytes) (tau : Nat) : Option Poly := do
  let stream := H.shake256 rho
  let coeffs ← ballLoop stream fuel tau
    ⟨List.replicate N 0, leValue (squeeze stream 0 8), 8⟩
  if h : coeffs.length = N then some ⟨coeffs, h⟩ else none

variable {K L : Nat}

def expandMask (H : Shake) (nonce : Bytes) (kappa : Nat) (params : MlDsaParams K L) :
    Poly :=
  -- `(kappa as u16).to_le_bytes()`
  bitunpack (H.shake256 (nonce ++ [UInt8.ofNat kappa, UInt8.ofNat (kappa >>> 8)]))
    params.gamma1Bits

/-! ## Rounding and norms of polynomials -/

def highbitsPoly (w : Poly) (params : MlDsaParams K L) (i : Nat) : Nat :=
  highbits (fieldFromMontgomery (w.coeff i)) params.gamma2Den

def makeHintPoly (ct0 w cs2 : Poly) (params : MlDsaParams K L) : List Nat × Nat :=
  let h := (List.range N).map fun i =>
    makeHint (ct0.coeff i) (w.coeff i) (cs2.coeff i) params.gamma2Den
  (h, h.sum)

def useHintPoly (r : Poly) (h : List Nat) (params : MlDsaParams K L) (i : Nat) : Nat :=
  useHint (r.coeff i) (h.getD i 0) params.gamma2Den

def coefficientsExceedBound (w : Poly) (bound : Nat) : Bool :=
  w.coeffs.any fun c => decide (bound ≤ fieldInfinityNorm c)

def lowbitsExceedBound (w : Poly) (bound gamma2Den : Nat) : Bool :=
  w.coeffs.any fun c =>
    let r0 := (decompose c gamma2Den).2
    -- `(r0 ^ (r0 >> 31)).wrapping_sub(r0 >> 31)`
    decide (bound ≤ r0.natAbs)

/-- The disjunction of a check over `count` polynomials, none skipped. -/
def anyOf (count : Nat) (check : Nat → Bool) : Bool :=
  forRange 0 count (fun i reject => reject || check i) false

/-! ## Keys -/

/-- `a[r][s]` -/
def computeMatrixA (H : Shake) (fuel K L : Nat) (rho : Bytes) :
    Option (List (List NttPoly)) :=
  forCollect K fun r => forCollect L fun s =>
    sampleNtt H fuel rho (UInt8.ofNat s) (UInt8.ofNat r)

def computePubkeyHash (H : Shake) (pk : Bytes) : Bytes := squeeze (H.shake256 pk) 0 64

def computeMessageHash (H : Shake) (tr message ctx : Bytes) : Except MlDsaError Bytes :=
  if ctx.length > CONTEXT_MAX_LEN then .error .ContextTooLong
  else .ok (squeeze (H.shake256
    (tr ++ [0] ++ [UInt8.ofNat ctx.length] ++ ctx ++ message)) 0 64)

/-- `t1[i][j] << D` for the polynomial `i`. -/
def shiftedT1 (t1 : Nat → Nat → Nat) (i : Nat) : Poly :=
  ⟨(List.range N).map fun j => fieldToMontgomery (t1 i j <<< D), by simp⟩

def computeT1Hat (t1 : Nat → Nat → Nat) (i : Nat) : NttPoly := ntt (shiftedT1 t1 i)

structure MlDsaKeyMaterial where
  seed : Bytes
  keyBytes : Bytes
  pk : Bytes
  tr : Bytes
  a : Nat → Nat → NttPoly
  s1Hat : Nat → NttPoly
  s2Hat : Nat → NttPoly
  t0Hat : Nat → NttPoly

/-- `acc + Σ a[i][j] * v[j]`, one product at a time. -/
def accumulate (L : Nat) (acc : NttPoly) (row v : Nat → NttPoly) : NttPoly :=
  forRange 0 L (fun j acc => nttAdd acc (nttMul (row j) (v j))) acc

def fromSeed (H : Shake) (fuel : Nat) (params : MlDsaParams K L) (seed : Bytes) :
    Option MlDsaKeyMaterial := do
  let stream := H.shake256 (seed ++ [UInt8.ofNat K, UInt8.ofNat L])
  let rho := squeeze stream 0 32
  let rhos := squeeze stream 32 64
  let keyBytes := squeeze stream 96 32
  let matrix ← computeMatrixA H fuel K L rho
  let a := fun i j => (matrix.getD i []).getD j (.zero _)
  let s1 ← forCollect L fun r => sampleBoundedPoly H fuel rhos (UInt8.ofNat r) params.eta
  let s1Hat := fun r => ntt (s1.getD r (.zero _))
  let s2 ← forCollect K fun r =>
    sampleBoundedPoly H fuel rhos (UInt8.ofNat (L + r)) params.eta
  let s2Hat := fun r => ntt (s2.getD r (.zero _))
  let t := fun i => invntt (accumulate L (s2Hat i) (a i) s1Hat)
  let t1 := fun i j => (power2round ((t i).coeff j)).1
  let t0 := fun i => ((t i).map fun c => (power2round c).2 : Poly)
  let pk := pkEncode K rho t1
  some { seed := seed, keyBytes := keyBytes, pk := pk, tr := computePubkeyHash H pk,
         a := a, s1Hat := s1Hat, s2Hat := s2Hat, t0Hat := fun i => ntt (t0 i) }

/-! ## Signing -/

/-- One turn of the loop of `sign_internal`: `none` inside when it is rejected. -/
def signAttempt (H : Shake) (fuel : Nat) (params : MlDsaParams K L)
    (key : MlDsaKeyMaterial) (mu nonce : Bytes) (kappa : Nat) : Option (Option Bytes) := do
  let gamma1beta := params.gamma1 - params.beta
  let gamma2beta := params.gamma2 - params.beta
  let y := fun i => expandMask H nonce (kappa + i) params
  let yHat := fun i => ntt (y i)
  let w := fun i => invntt (accumulate L (.zero _) (key.a i) yHat)
  let w1 := fun i => highbitsPoly (w i) params
  let ct := squeeze (H.shake256 (mu ++ w1Encode params w1)) 0 params.lambdaOver4
  let c ← sampleInBall H fuel ct params.tau
  let cHat := ntt c
  let cs1 := fun i => invntt (nttMul cHat (key.s1Hat i))
  let cs2 := fun i => invntt (nttMul cHat (key.s2Hat i))
  let z := fun i => polyAdd (y i) (cs1 i)
  if anyOf L fun i => coefficientsExceedBound (z i) gamma1beta then some none
  else if anyOf K fun i =>
      lowbitsExceedBound (polySub (w i) (cs2 i)) gamma2beta params.gamma2Den then some none
  else
    let ct0 := fun i => invntt (nttMul cHat (key.t0Hat i))
    if anyOf K fun i => coefficientsExceedBound (ct0 i) params.gamma2 then some none
    else
      let hints := (List.range K).map fun i => makeHintPoly (ct0 i) (w i) (cs2 i) params
      if (hints.map Prod.snd).sum > params.omega then some none
      else some (some (sigEncode params ct z (hints.map Prod.fst)))

def signLoop (H : Shake) (fuel : Nat) (params : MlDsaParams K L) (key : MlDsaKeyMaterial)
    (mu nonce : Bytes) : Nat → Nat → Option (Except MlDsaError Bytes)
  | 0, _ => some (.error .RetryLimitExceeded)
  | iterations + 1, kappa => do
      match ← signAttempt H fuel params key mu nonce kappa with
      | some sig => some (.ok sig)
      | none => signLoop H fuel params key mu nonce iterations (kappa + L)

def signInternal (H : Shake) (fuel : Nat) (params : MlDsaParams K L)
    (key : MlDsaKeyMaterial) (mu rnd : Bytes) : Option (Except MlDsaError Bytes) :=
  let nonce := squeeze (H.shake256 (key.keyBytes ++ rnd ++ mu)) 0 64
  signLoop H fuel params key mu nonce MAX_SIGN_ITERATIONS 0

def signDerandInto (H : Shake) (fuel : Nat) (params : MlDsaParams K L)
    (key : MlDsaKeyMaterial) (message ctx rnd : Bytes) :
    Option (Except MlDsaError Bytes) :=
  match computeMessageHash H key.tr message ctx with
  | .error e => some (.error e)
  | .ok mu => signInternal H fuel params key mu rnd

/-! ## Verification -/

def verifyInternal (H : Shake) (fuel : Nat) (params : MlDsaParams K L)
    (pk mu sig : Bytes) : Option (Except MlDsaError Unit) :=
  match pkDecode params pk with
  | .error e => some (.error e)
  | .ok (rho, t1) =>
    match sigDecode params sig with
    | .error e => some (.error e)
    | .ok (ch, z, h) =>
      let gamma1beta := params.gamma1 - params.beta
      if (List.range L).any fun i => coefficientsExceedBound (z i) gamma1beta then
        some (.error .InvalidSignature)
      else do
        let matrix ← computeMatrixA H fuel K L rho
        let a := fun i j => (matrix.getD i []).getD j (.zero _)
        let c ← sampleInBall H fuel ch params.tau
        let cHat := ntt c
        let zHat := fun i => ntt (z i)
        let wApprox := fun i =>
          invntt (nttSub (accumulate L (.zero _) (a i) zHat)
            (nttMul cHat (computeT1Hat t1 i)))
        let w1 := fun i => useHintPoly (wApprox i) (h.getD i []) params
        let computedCh :=
          squeeze (H.shake256 (mu ++ w1Encode params w1)) 0 params.lambdaOver4
        if ch ≠ computedCh then some (.error .InvalidSignature) else some (.ok ())

def verifyMessage (H : Shake) (fuel : Nat) (params : MlDsaParams K L)
    (pk message sig ctx : Bytes) : Option (Except MlDsaError Unit) :=
  match computeMessageHash H (computePubkeyHash H pk) message ctx with
  | .error e => some (.error e)
  | .ok mu => verifyInternal H fuel params pk mu sig

end Stdx.MlDsa
