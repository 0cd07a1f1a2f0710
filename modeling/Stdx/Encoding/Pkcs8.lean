import Stdx.Encoding.DerFraming
import Stdx.PCurves.Point
import Stdx.PCurves.P256
import Stdx.PCurves.P384

/-!
# EC private keys in PKCS#8

The P-256 template and the two decoders of `crypto/src/encoding/pkcs8.rs`.  The template
decoder compares octets at fixed offsets, the other one walks the DER values.
-/

namespace Stdx.Encoding.Pkcs8

open Stdx.Foundation Stdx.Encoding.Der Stdx.PCurves

/-- The parts of the two curves that no key operation uses. -/
structure Suite where
  debug : Bool
  hash256 : Bytes → FixedBytes 32
  hmac256 : Bytes → Bytes → FixedBytes 32
  hash384 : Bytes → FixedBytes 48
  hmac384 : Bytes → Bytes → FixedBytes 48

abbrev Suite.p256 (S : Suite) : PCurves.Curve := P256.curve S.debug S.hash256 S.hmac256

abbrev Suite.p384 (S : Suite) : PCurves.Curve := P384.curve S.debug S.hash384 S.hmac384

inductive Pkcs8Error where
  | invalidLength
  | invalidSequence
  | invalidVersion
  | invalidAlgorithmIdentifier
  | invalidOctetString
  | invalidEcSecretKey
  | invalidEcVersion
  | invalidSecretKeyOctet
  | invalidPublicKeyExplicit
  | invalidPublicKeyBitString
  | invalidPublicKeyPrefix
  | invalidPublicKeyMismatch
  | keyDerivationFailed
  | invalidDer (error : DerError)
  | unsupportedAlgorithm
  | unsupportedCurve
  deriving DecidableEq, Repr

/-! ## The template -/

def PKCS8_DER_LEN : Nat := 138

def EC_PUBLIC_KEY_OID : Bytes := [0x2a, 0x86, 0x48, 0xce, 0x3d, 0x02, 0x01]

def SECP256R1_OID : Bytes := [0x2a, 0x86, 0x48, 0xce, 0x3d, 0x03, 0x01, 0x07]

def PRIVATE_KEY_OFFSET : Nat := 36

def PUBLIC_KEY_OFFSET : Nat := 73

/-- The octets from `offset` on that a comparison asks for, and its error. -/
structure FixedOctets where
  offset : Nat
  octets : Bytes
  error : Pkcs8Error

def fixedPrefix : List FixedOctets := [
  ⟨0, [0x30, 0x81, 0x87], .invalidSequence⟩,
  ⟨3, [0x02, 0x01, 0x00], .invalidVersion⟩,
  ⟨6, [0x30, 0x13], .invalidAlgorithmIdentifier⟩,
  ⟨8, [0x06, 0x07] ++ EC_PUBLIC_KEY_OID, .invalidAlgorithmIdentifier⟩,
  ⟨17, [0x06, 0x08] ++ SECP256R1_OID, .invalidAlgorithmIdentifier⟩,
  ⟨27, [0x04, 0x6d], .invalidOctetString⟩,
  ⟨29, [0x30, 0x6b], .invalidEcSecretKey⟩,
  ⟨31, [0x02, 0x01, 0x01], .invalidEcVersion⟩,
  ⟨34, [0x04, 0x20], .invalidSecretKeyOctet⟩,
  ⟨68, [0xa1, 0x44], .invalidPublicKeyExplicit⟩,
  ⟨70, [0x03, 0x42, 0x00], .invalidPublicKeyBitString⟩,
  ⟨73, [0x04], .invalidPublicKeyPrefix⟩]

def FixedOctets.Match (f : FixedOctets) (der : Bytes) : Prop :=
  (der.drop f.offset).take f.octets.length = f.octets

instance (f : FixedOctets) (der : Bytes) : Decidable (f.Match der) :=
  inferInstanceAs (Decidable (_ = _))

/-- The first comparison that fails gives the error. -/
def compareAll (der : Bytes) : List FixedOctets → Outcome Pkcs8Error Unit
  | [] => .ok ()
  | f :: rest => if f.Match der then compareAll der rest else .err f.error

def validateFixedPrefix (der : Bytes) : Outcome Pkcs8Error Unit :=
  if der.length ≠ PKCS8_DER_LEN then .err .invalidLength else compareAll der fixedPrefix

def TEMPLATE : FixedBytes PKCS8_DER_LEN :=
  ⟨[0x30, 0x81, 0x87,
    0x02, 0x01, 0x00,
    0x30, 0x13,
    0x06, 0x07, 0x2a, 0x86, 0x48, 0xce, 0x3d, 0x02, 0x01,
    0x06, 0x08, 0x2a, 0x86, 0x48, 0xce, 0x3d, 0x03, 0x01, 0x07,
    0x04, 0x6d,
    0x30, 0x6b,
    0x02, 0x01, 0x01,
    0x04, 0x20] ++ List.replicate 32 0x00 ++
    [0xa1, 0x44,
    0x03, 0x42, 0x00] ++ List.replicate 65 0x00, by simp [PKCS8_DER_LEN]⟩

/-- `der[offset..offset + data.len()].copy_from_slice(data)` -/
def writeAt (der : Bytes) (offset : Nat) (data : Bytes) : Bytes :=
  der.take offset ++ data ++ der.drop (offset + data.length)

section

variable (S : Suite)

def encodeP256Pkcs8Der (key : SecretKey S.p256) : Bytes :=
  let pubBytes := key.publicKey.toBytes
  let privBytes := key.toBytes
  let der := writeAt TEMPLATE.octets PUBLIC_KEY_OFFSET pubBytes.octets
  writeAt der PRIVATE_KEY_OFFSET privBytes.octets

def decodeP256Pkcs8Der (der : Bytes) : Outcome Pkcs8Error (SecretKey S.p256) := do
  validateFixedPrefix der
  let privateKey := (der.drop PRIVATE_KEY_OFFSET).take 32
  let publicKey := (der.drop PUBLIC_KEY_OFFSET).take 65
  if h : privateKey.length = 32 then
    match SecretKey.fromBytes ⟨privateKey, h⟩ with
    | .error _ => .err .keyDerivationFailed
    | .ok key =>
      if key.publicKey.toBytes.octets ≠ publicKey then .err .invalidPublicKeyMismatch
      else .ok key
  else .panic

/-! ## The generic decoder -/

def OID_EC_PUBLIC_KEY : Bytes := [0x2a, 0x86, 0x48, 0xce, 0x3d, 0x02, 0x01]

def OID_SECP256R1 : Bytes := [0x2a, 0x86, 0x48, 0xce, 0x3d, 0x03, 0x01, 0x07]

def OID_SECP384R1 : Bytes := [0x2b, 0x81, 0x04, 0x00, 0x22]

inductive EcPrivateKey where
  | p256 (key : SecretKey S.p256)
  | p384 (key : SecretKey S.p384)

inductive NamedCurve where
  | p256
  | p384
  deriving DecidableEq, Repr

def EcPrivateKey.curve {S : Suite} : EcPrivateKey S → NamedCurve
  | .p256 _ => .p256
  | .p384 _ => .p384

def curveFromOid (oid : Bytes) : Outcome Pkcs8Error NamedCurve :=
  if oid = OID_SECP256R1 then .ok .p256
  else if oid = OID_SECP384R1 then .ok .p384
  else .err .unsupportedCurve

/-- `SecretKey::from_bytes(&scalar.try_into()?)` -/
def secretKeyOf (C : PCurves.Curve) (scalar : Bytes) : Outcome Pkcs8Error (SecretKey C) :=
  if h : scalar.length = C.FIELD_BYTES then
    match SecretKey.fromBytes ⟨scalar, h⟩ with
    | .error _ => .err .keyDerivationFailed
    | .ok key => .ok key
  else .err .invalidEcSecretKey

def buildEcKey (curve : NamedCurve) (scalar : Bytes) : Outcome Pkcs8Error (EcPrivateKey S) :=
  match curve with
  | .p256 => do
      let key ← secretKeyOf S.p256 scalar
      .ok (.p256 key)
  | .p384 => do
      let key ← secretKeyOf S.p384 scalar
      .ok (.p384 key)

end

def call {α : Type} (code : Read α) (r : Reader) : Outcome Pkcs8Error (α × Reader) :=
  match code r with
  | (.ok value, r') => .ok (value, r')
  | (.err error, _) => .err (.invalidDer error)
  | (.panic, _) => .panic

def finished (r : Reader) : Outcome Pkcs8Error Unit :=
  match finish r with
  | .ok () => .ok ()
  | .error error => .err (.invalidDer error)

/-- `while !seq.is_empty()`; every pass reads an octet, so the fuel is never used up. -/
def whileUnread {σ : Type} (field : σ → Reader → Outcome Pkcs8Error (σ × Reader)) :
    Nat → σ → Reader → Outcome Pkcs8Error σ
  | fuel, s, seq =>
    if seq.isEmpty then .ok s
    else match fuel with
      | 0 => .panic
      | fuel + 1 => do
          let (s, seq) ← field s seq
          whileUnread field fuel s seq

section

variable (T : Target)

def sec1Field (curve : Option NamedCurve) (seq : Reader) :
    Outcome Pkcs8Error (Option NamedCurve × Reader) := do
  let (tag, _) ← call peekTag seq
  if tag = 0xa0 then do
    let (params, seq) ← call (readExplicit T 0xa0) seq
    let (oid, params) ← call (readOid T) params
    finished params
    let parsed ← curveFromOid oid
    if curve.any (· ≠ parsed) then .err .invalidAlgorithmIdentifier
    else .ok (some parsed, seq)
  else if tag = 0xa1 then do
    let (pub, seq) ← call (readExplicit T 0xa1) seq
    let (_, pub) ← call (readBitString T) pub
    finished pub
    .ok (curve, seq)
  else .err .invalidEcSecretKey

def parseSec1 (der : Bytes) : Outcome Pkcs8Error (Option NamedCurve × Bytes) := do
  let outer := Reader.new der
  let (seq, outer) ← call (readSequence T) outer
  finished outer
  let (version, seq) ← call (readInteger T) seq
  if version ≠ [0x01] then .err .invalidEcVersion
  else do
    let (scalar, seq) ← call (readOctetString T) seq
    let curve ← whileUnread (sec1Field T) seq.remaining none seq
    .ok (curve, scalar)

def attributesField (_ : Unit) (seq : Reader) : Outcome Pkcs8Error (Unit × Reader) := do
  let (tag, _) ← call peekTag seq
  if tag = 0xa0 then do
    let (_, seq) ← call (readExplicit T 0xa0) seq
    .ok ((), seq)
  else .err (.invalidDer .unexpectedTag)

def decodeEcPkcs8Der (S : Suite) (der : Bytes) : Outcome Pkcs8Error (EcPrivateKey S) := do
  let outer := Reader.new der
  let (seq, outer) ← call (readSequence T) outer
  finished outer
  let (version, seq) ← call (readInteger T) seq
  if version ≠ [0x00] then .err .invalidVersion
  else do
    let (algorithm, seq) ← call (readSequence T) seq
    let (algorithmOid, algorithm) ← call (readOid T) algorithm
    if algorithmOid ≠ OID_EC_PUBLIC_KEY then .err .unsupportedAlgorithm
    else do
      let (curveOid, algorithm) ← call (readOid T) algorithm
      finished algorithm
      let outerCurve ← curveFromOid curveOid
      let (privateKey, seq) ← call (readOctetString T) seq
      whileUnread (attributesField T) seq.remaining () seq
      let (innerCurve, scalar) ← parseSec1 T privateKey
      if innerCurve.any (· ≠ outerCurve) then .err .invalidAlgorithmIdentifier
      else buildEcKey S outerCurve scalar

end

end Stdx.Encoding.Pkcs8
