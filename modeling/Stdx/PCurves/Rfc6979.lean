import Stdx.PCurves.Curve

/-!
# Deterministic nonces

The HMAC_DRBG of RFC 6979 as `p_curves.rs` runs it: three rounds with
constant-time selection, then a plain loop.
-/

namespace Stdx.PCurves

open Stdx.Foundation
open Stdx.BigNumber

def ctSelectByte (a b : UInt8) (choice : Bool) : UInt8 :=
  let mask : UInt8 := 0 - (if choice then 1 else 0)
  (a &&& mask) ||| (b &&& ~~~mask)

def ctSelectBytes {N : Nat} (a b : FixedBytes N) (choice : Bool) : FixedBytes N :=
  ⟨List.zipWith (fun x y => ctSelectByte x y choice) a.octets b.octets, by
    simp [a.length_eq, b.length_eq]⟩

namespace Curve

variable (C : Curve)

/-- Bit `j` of the result is bit `FIELD_BITS - 1 - j` of `t`, both counted as the
source counts them. -/
def bits2intStep (t : Bytes) (j : Nat) (out : Bytes) : Bytes :=
  let src := C.FIELD_BITS - 1 - j
  let bit := (t.getD (src / 8) 0 >>> UInt8.ofNat (7 - src % 8)) &&& 1
  let byte := C.FIELD_BYTES - 1 - j / 8
  out.set byte (out.getD byte 0 ||| (bit <<< UInt8.ofNat (j % 8)))

theorem bits2intStep_length (t : Bytes) (count : Nat) (out : Bytes) :
    (forRange 0 count (C.bits2intStep t) out).length = out.length :=
  forRange_rule (I := fun _ (s : Bytes) => s.length = out.length)
    (fun j s _ _ h => by simpa [bits2intStep] using h) rfl

def bits2intOctets (t : Bytes) : C.FieldBytes :=
  if h : t.length * 8 ≥ C.FIELD_BITS then
    ⟨forRange 0 C.FIELD_BITS (C.bits2intStep t) (List.replicate C.FIELD_BYTES 0), by
      rw [bits2intStep_length, List.length_replicate]⟩
  else
    ⟨List.replicate (C.FIELD_BYTES - t.length) 0 ++ t, by
      have := C.fieldBytes_eq
      simp
      omega⟩

def scalarFromNonce (t : Bytes) : Option C.U :=
  let value : C.U := readBe (C.bits2intOctets t).octets
  if value.isZero || value.ctGe C.MODULUS_N then none else some value

end Curve

@[ext]
structure Rfc6979 (C : Curve) where
  k : C.DigestBytes
  v : C.DigestBytes
  deriving DecidableEq

namespace Rfc6979

variable {C : Curve}

/-- `rfc6979_retry_clone` and `retry`: `K = HMAC_K(V || 0x00)`, `V = HMAC_K(V)`. -/
def retry (s : Rfc6979 C) : Rfc6979 C :=
  let k := C.hmac s.k.octets (s.v.octets ++ [0x00])
  let v := C.hmac k.octets s.v.octets
  ⟨k, v⟩

def buildT (s : Rfc6979 C) : Bytes × Rfc6979 C :=
  forRange 0 C.nonceBlocks
    (fun _ p =>
      let v := C.hmac p.2.k.octets p.2.v.octets
      (p.1 ++ v.octets, ⟨p.2.k, v⟩))
    ([], s)

/-- The variables of the constant-time loop. -/
structure Search (C : Curve) where
  drbg : Rfc6979 C
  candidate : Bytes
  candidateK : C.DigestBytes
  candidateV : C.DigestBytes
  found : Bool

def searchRound (g : Search C) : Search C :=
  let (t, drbg) := g.drbg.buildT
  let isValid := (C.scalarFromNonce t).isSome
  let take := isValid && !g.found
  let candidate := List.zipWith (fun x y => ctSelectByte x y take) t g.candidate
  let candidateK := ctSelectBytes drbg.k g.candidateK take
  let candidateV := ctSelectBytes drbg.v g.candidateV take
  let found := g.found || isValid
  let ⟨kRetry, vRetry⟩ := drbg.retry
  ⟨⟨ctSelectBytes drbg.k kRetry (!isValid), ctSelectBytes drbg.v vRetry (!isValid)⟩,
    candidate, candidateK, candidateV, found⟩

def fallback : Nat → Rfc6979 C → Option (C.U × Rfc6979 C)
  | 0, _ => none
  | fuel + 1, s =>
    let (t, drbg) := s.buildT
    match C.scalarFromNonce t with
    | some value => some (value, drbg)
    | none => fallback fuel drbg.retry

def finish (fuel : Nat) (g : Search C) : Option (C.U × Rfc6979 C) :=
  if g.found then
    match C.scalarFromNonce g.candidate with
    | some value => some (value, ⟨g.candidateK, g.candidateV⟩)
    | none => fallback fuel g.drbg
  else fallback fuel g.drbg

def generate (fuel : Nat) (s : Rfc6979 C) : Option (C.U × Rfc6979 C) :=
  finish fuel (forRange 0 3 (fun _ => searchRound)
    ⟨s, List.replicate (C.nonceBlocks * C.DIGEST_BYTES) 0,
      FixedBytes.zeroed _, FixedBytes.zeroed _, false⟩)

end Rfc6979

end Stdx.PCurves
