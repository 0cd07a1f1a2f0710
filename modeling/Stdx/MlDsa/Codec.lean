import Stdx.MlDsa.Ring
import Stdx.Foundation.Packing

/-!
# Byte encodings of ML-DSA

Public keys hold `t1` in ten bits a coefficient, signatures hold `z` in eighteen or
twenty and the hint as positions.  Fields are written on `Nat` and cut to octets
once, as the casts of the source do.
-/

namespace Stdx.MlDsa

open Stdx.Foundation

inductive MlDsaError where
  | ContextTooLong
  | InvalidSignature
  | InvalidPublicKey
  | InvalidSignatureLength
  | RetryLimitExceeded
deriving DecidableEq

/-- The parameter sets with their dimensions; the fields after the source's own are
what its sizes, `debug_assert!` and `unreachable!()` rely on. -/
structure MlDsaParams (K L : Nat) where
  eta : Nat
  tau : Nat
  beta : Nat
  gamma1 : Nat
  gamma1Bits : Nat
  gamma2 : Nat
  gamma2Den : Nat
  omega : Nat
  lambdaOver4 : Nat
  polyzBytes : Nat
  publicKeySize : Nat
  signatureSize : Nat
  eta_eq : eta = 2 ∨ eta = 4
  tau_le : tau ≤ N
  beta_eq : beta = tau * eta
  beta_lt : beta < gamma2
  gamma1_eq : gamma1Bits = 17 ∧ gamma1 = 2 ^ 17 ∧ polyzBytes = 576 ∨
    gamma1Bits = 19 ∧ gamma1 = 2 ^ 19 ∧ polyzBytes = 640
  gamma2_eq : gamma2Den = 32 ∧ gamma2 = 261888 ∨ gamma2Den = 88 ∧ gamma2 = 95232
  omega_lt : omega < 256
  publicKeySize_eq : publicKeySize = 32 + K * 320
  signatureSize_eq : signatureSize = lambdaOver4 + L * polyzBytes + (omega + K)

def PARAMS_44 : MlDsaParams 4 4 where
  eta := 2
  tau := 39
  beta := 78
  gamma1 := 1 <<< 17
  gamma1Bits := 17
  gamma2 := (Q - 1) / 88
  gamma2Den := 88
  omega := 80
  lambdaOver4 := 32
  polyzBytes := 18 * N / 8
  publicKeySize := 1312
  signatureSize := 2420
  eta_eq := by decide
  tau_le := by decide
  beta_eq := rfl
  beta_lt := by decide
  gamma1_eq := by decide
  gamma2_eq := by decide
  omega_lt := by decide
  publicKeySize_eq := rfl
  signatureSize_eq := rfl

def PARAMS_65 : MlDsaParams 6 5 where
  eta := 4
  tau := 49
  beta := 196
  gamma1 := 1 <<< 19
  gamma1Bits := 19
  gamma2 := (Q - 1) / 32
  gamma2Den := 32
  omega := 55
  lambdaOver4 := 48
  polyzBytes := 20 * N / 8
  publicKeySize := 1952
  signatureSize := 3309
  eta_eq := by decide
  tau_le := by decide
  beta_eq := rfl
  beta_lt := by decide
  gamma1_eq := by decide
  gamma2_eq := by decide
  omega_lt := by decide
  publicKeySize_eq := rfl
  signatureSize_eq := rfl

def PARAMS_87 : MlDsaParams 8 7 where
  eta := 2
  tau := 60
  beta := 120
  gamma1 := 1 <<< 19
  gamma1Bits := 19
  gamma2 := (Q - 1) / 32
  gamma2Den := 32
  omega := 75
  lambdaOver4 := 64
  polyzBytes := 20 * N / 8
  publicKeySize := 2592
  signatureSize := 4627
  eta_eq := by decide
  tau_le := by decide
  beta_eq := rfl
  beta_lt := by decide
  gamma1_eq := by decide
  gamma2_eq := by decide
  omega_lt := by decide
  publicKeySize_eq := rfl
  signatureSize_eq := rfl

/-! ## Packings -/

def packing10 : Packing 4 5 10 where
  pack c := [UInt8.ofNat (c 0 &&& 0xff), UInt8.ofNat (c 0 >>> 8 ||| c 1 <<< 2),
    UInt8.ofNat (c 1 >>> 6 ||| c 2 <<< 4), UInt8.ofNat (c 2 >>> 4 ||| c 3 <<< 6),
    UInt8.ofNat (c 3 >>> 2)]
  unpack b := [(b 0).toNat ||| ((b 1).toNat &&& 0b11) <<< 8,
    (b 1).toNat >>> 2 ||| ((b 2).toNat &&& 0b1111) <<< 6,
    (b 2).toNat >>> 4 ||| ((b 3).toNat &&& 0b111111) <<< 4,
    (b 3).toNat >>> 6 ||| ((b 4).toNat &&& 0b11111111) <<< 2]
  length_pack _ := rfl
  length_unpack _ := rfl
  reads b b' h := by
    rw [h 0 (by decide), h 1 (by decide), h 2 (by decide), h 3 (by decide),
      h 4 (by decide)]
  round_trip c hc k hk := by
    have h0 := hc 0 (by decide)
    have h1 := hc 1 (by decide)
    have h2 := hc 2 (by decide)
    have h3 := hc 3 (by decide)
    interval_cases k <;>
      simp (disch := omega) only [List.getD_cons_zero, List.getD_cons_succ,
        octet_toNat_ofNat, Nat.shiftRight_eq_div_pow, or_shiftLeft, and_mask2, and_mask4,
        and_mask6, and_mask8] <;>
      omega

/-- `bitpack_18` and `bitunpack_18` on the differences from `2 ^ 17`. -/
def packing18 : Packing 4 9 18 where
  pack w := [UInt8.ofNat (w 0), UInt8.ofNat (w 0 >>> 8),
    UInt8.ofNat (w 0 >>> 16 ||| w 1 <<< 2), UInt8.ofNat (w 1 >>> 6),
    UInt8.ofNat (w 1 >>> 14 ||| w 2 <<< 4), UInt8.ofNat (w 2 >>> 4),
    UInt8.ofNat (w 2 >>> 12 ||| w 3 <<< 6), UInt8.ofNat (w 3 >>> 2),
    UInt8.ofNat (w 3 >>> 10)]
  unpack p := [(p 0).toNat ||| (p 1).toNat <<< 8 ||| (p 2).toNat <<< 16,
    (p 2).toNat >>> 2 ||| (p 3).toNat <<< 6 ||| (p 4).toNat <<< 14,
    (p 4).toNat >>> 4 ||| (p 5).toNat <<< 4 ||| (p 6).toNat <<< 12,
    (p 6).toNat >>> 6 ||| (p 7).toNat <<< 2 ||| (p 8).toNat <<< 10]
  length_pack _ := rfl
  length_unpack _ := rfl
  reads b b' h := by
    rw [h 0 (by decide), h 1 (by decide), h 2 (by decide), h 3 (by decide),
      h 4 (by decide), h 5 (by decide), h 6 (by decide), h 7 (by decide),
      h 8 (by decide)]
  round_trip w hw k hk := by
    have h0 := hw 0 (by decide)
    have h1 := hw 1 (by decide)
    have h2 := hw 2 (by decide)
    have h3 := hw 3 (by decide)
    interval_cases k <;>
      simp (disch := omega) only [List.getD_cons_zero, List.getD_cons_succ,
        octet_toNat_ofNat, Nat.shiftRight_eq_div_pow, or_shiftLeft] <;>
      omega

/-- `bitpack_20` and `bitunpack_20` on the differences from `2 ^ 19`. -/
def packing20 : Packing 2 5 20 where
  pack w := [UInt8.ofNat (w 0), UInt8.ofNat (w 0 >>> 8),
    UInt8.ofNat (w 0 >>> 16 ||| (w 1 &&& 0b1111) <<< 4), UInt8.ofNat (w 1 >>> 4),
    UInt8.ofNat (w 1 >>> 12)]
  unpack p := [(p 0).toNat ||| (p 1).toNat <<< 8 ||| (p 2).toNat <<< 16,
    (p 2).toNat >>> 4 ||| (p 3).toNat <<< 4 ||| (p 4).toNat <<< 12]
  length_pack _ := rfl
  length_unpack _ := rfl
  reads b b' h := by
    rw [h 0 (by decide), h 1 (by decide), h 2 (by decide), h 3 (by decide),
      h 4 (by decide)]
  round_trip w hw k hk := by
    have h0 := hw 0 (by decide)
    have h1 := hw 1 (by decide)
    interval_cases k <;>
      simp (disch := omega) only [List.getD_cons_zero, List.getD_cons_succ,
        octet_toNat_ofNat, Nat.shiftRight_eq_div_pow, or_shiftLeft, and_mask4] <;>
      omega

/-! ## Polynomials with small coefficients -/

/-- `(B as i32 - field_centered_mod(c)) as u32` -/
def zField (bits : Nat) (c : Nat) : Nat := ((2 ^ bits - fieldCenteredMod c) % 2 ^ 32).toNat

def bitpack18 (z : Poly) : Bytes := packing18.packAll (N / 4) fun i => zField 17 (z.coeff i)

def bitpack20 (z : Poly) : Bytes := packing20.packAll (N / 2) fun i => zField 19 (z.coeff i)

def bitpack (z : Poly) (gamma1Bits : Nat) : Bytes :=
  match gamma1Bits with
  | 17 => bitpack18 z
  | 19 => bitpack20 z
  | _ => []

def bitunpack18 (v : Nat → UInt8) : Poly :=
  ⟨(packing18.unpackAll (N / 4) v).map fun w =>
    fieldSubToMontgomery (2 ^ 17) (w &&& (2 ^ 18 - 1)), by
    rw [List.length_map, Packing.length_unpackAll]; decide⟩

def bitunpack20 (v : Nat → UInt8) : Poly :=
  ⟨(packing20.unpackAll (N / 2) v).map fun w =>
    fieldSubToMontgomery (2 ^ 19) (w &&& (2 ^ 20 - 1)), by
    rw [List.length_map, Packing.length_unpackAll]; decide⟩

def bitunpack (v : Nat → UInt8) (gamma1Bits : Nat) : Poly :=
  match gamma1Bits with
  | 17 => bitunpack18 v
  | 19 => bitunpack20 v
  | _ => .zero _

/-! ## Public keys -/

def pkEncode (K : Nat) (rho : Bytes) (t1 : Nat → Nat → Nat) : Bytes :=
  rho ++ ofChunks K fun r => packing10.packAll (N / 4) (t1 r)

variable {K L : Nat}

def pkDecode (params : MlDsaParams K L) (pk : Bytes) :
    Except MlDsaError (Bytes × (Nat → Nat → Nat)) :=
  if pk.length ≠ params.publicKeySize then .error .InvalidPublicKey
  else .ok (pk.take 32, fun r i =>
    (packing10.unpackAll (N / 4) fun k => pk.getD (32 + 320 * r + k) 0).getD i 0)

/-! ## Hints -/

structure HintState where
  out : Bytes
  idx : Nat

def hintEncodeRow (row : List Nat) (s : HintState) : HintState :=
  forRange 0 N (fun j s =>
    if row.getD j 0 ≠ 0 then ⟨s.out.set s.idx (UInt8.ofNat j), s.idx + 1⟩ else s) s

def hintEncode (params : MlDsaParams K L) (h : List (List Nat)) : Bytes :=
  let omega := params.omega
  (forRange 0 K (fun i s =>
    let s := hintEncodeRow (h.getD i []) s
    ⟨s.out.set (omega + i) (UInt8.ofNat s.idx), s.idx⟩)
    ⟨List.replicate (omega + K) 0, 0⟩).out

/-- `while idx < limit`, `remaining` positions before the limit. -/
def hintDecodeRow (sig : Nat → UInt8) (polyStart : Nat) :
    Nat → Nat → List Nat → Except MlDsaError (List Nat)
  | 0, _, row => .ok row
  | remaining + 1, idx, row =>
    let j := (sig idx).toNat
    if idx > polyStart ∧ (sig (idx - 1)).toNat ≥ j then .error .InvalidSignature
    else if j ≥ N then .error .InvalidSignature
    else hintDecodeRow sig polyStart remaining (idx + 1) (row.set j 1)

def hintDecodeRows (sig : Nat → UInt8) (omega : Nat) :
    Nat → Nat → Nat → Except MlDsaError (List (List Nat) × Nat)
  | 0, _, idx => .ok ([], idx)
  | remaining + 1, i, idx =>
    let limit := (sig (omega + i)).toNat
    if limit < idx ∨ limit > omega then .error .InvalidSignature
    else do
      let row ← hintDecodeRow sig idx (limit - idx) idx (List.replicate N 0)
      let (rows, last) ← hintDecodeRows sig omega remaining (i + 1) limit
      .ok (row :: rows, last)

def hintDecode (params : MlDsaParams K L) (sig : Nat → UInt8) :
    Except MlDsaError (List (List Nat)) := do
  let (rows, idx) ← hintDecodeRows sig params.omega K 0 0
  if (List.range params.omega).any fun k => idx ≤ k && sig k != 0 then
    .error .InvalidSignature
  else .ok rows

/-! ## Signatures -/

def sigEncode (params : MlDsaParams K L) (ch : Bytes) (z : Nat → Poly)
    (h : List (List Nat)) : Bytes :=
  ch ++ (ofChunks L fun i => bitpack (z i) params.gamma1Bits) ++ hintEncode params h

def sigDecode (params : MlDsaParams K L) (sig : Bytes) :
    Except MlDsaError (Bytes × (Nat → Poly) × List (List Nat)) :=
  if sig.length ≠ params.signatureSize then .error .InvalidSignatureLength
  else do
    let lo4 := params.lambdaOver4
    let pz := params.polyzBytes
    let z := fun i => bitunpack (fun k => sig.getD (lo4 + pz * i + k) 0) params.gamma1Bits
    let h ← hintDecode params fun k => sig.getD (lo4 + pz * L + k) 0
    .ok (sig.take lo4, z, h)

def w1Encode (params : MlDsaParams K L) (w1 : Nat → Nat → Nat) : Bytes :=
  match params.gamma2Den with
  | 32 => ofChunks K fun r => ofChunks (N / 2) fun i =>
    let w := fun k => w1 r (2 * i + k)
    [UInt8.ofNat (w 0 ||| w 1 <<< 4)]
  | 88 => ofChunks K fun r => ofChunks (N / 4) fun i =>
    let b := fun k => w1 r (4 * i + k)
    [UInt8.ofNat (b 0 ||| b 1 <<< 6), UInt8.ofNat (b 1 >>> 2 ||| b 2 <<< 4),
     UInt8.ofNat (b 2 >>> 4 ||| b 3 <<< 2)]
  | _ => []

end Stdx.MlDsa
