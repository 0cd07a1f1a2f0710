import Stdx.Base64.Bijection
import Stdx.Foundation.Outcome

/-!
# JSON Web Tokens

`sign`, `parse_header` and `parse_and_verify`.  Keys and `serde` are parameters; the
two clock comparisons are made on `u64`s, so a build with overflow checks panics where
the limit leaves the range and any other build wraps.
-/

namespace Stdx.Jwt

open Stdx.Foundation Stdx.Base64

def SIGNATURE_MAX_SIZE : Nat := 4627

inductive TokenType where
  | JWT
  deriving DecidableEq

inductive Algorithm where
  | HS256
  | HS384
  | HS512
  | BLAKE3
  | EdDSA
  | ES256
  | ES384
  | ES512
  | MlDsa44
  | MlDsa65
  | MlDsa87
  | RS256
  | RS384
  | RS512
  | PS256
  | PS384
  | PS512
  deriving DecidableEq

structure Header where
  typ : TokenType
  alg : Algorithm
  cty : Option String
  jku : Option String
  kid : Option String
  x5u : Option String
  x5c : Option (List String)
  x5t : Option String
  x5tS256 : Option String

inductive Error where
  | json
  | invalidToken
  | invalidSignature
  | invalidKey
  | clockIsMissing
  deriving DecidableEq

structure Signature where
  value : Bytes
  length_le : value.length ≤ SIGNATURE_MAX_SIZE

structure Signer where
  algorithm : Algorithm
  sign : Bytes → Except Error Signature

structure Verifier where
  algorithm : Algorithm
  verify : Bytes → Bytes → Except Error Unit

structure Duration where
  secs : UInt64
  nanos : Fin 1000000000

structure VerifyOptions where
  allowedTimeDrift : Duration
  nbf : Bool
  exp : Bool
  aud : Option (List String)
  iss : Option (List String)
  clock : Option UInt64

/-! ## JSON -/

inductive Number where
  | posInt (value : UInt64)
  | negInt (value : Int64)
  | float (bits : UInt64)

inductive Value where
  | null
  | bool (value : Bool)
  | number (value : Number)
  | string (value : String)
  | array (items : List Value)
  | object (fields : List (String × Value))

abbrev Fields := List (String × Value)

def Value.asU64 : Value → Option UInt64
  | .number (.posInt value) => some value
  | _ => none

def Value.asStr : Value → Option String
  | .string value => some value
  | _ => none

/-- The JSON reader and writer, for claims of type `C`. -/
structure Serde (C : Type) where
  headerToString : Header → Option Bytes
  headerFromSlice : Bytes → Option Header
  toString : C → Option Bytes
  fromSlice : Bytes → Option C
  valueFromSlice : Bytes → Option Value
  fromValue : Value → Option C

/-! ## Shared-key signatures -/

/-- `Blake3::keyed_hash` and `Hmac::mac` of the three hash functions. -/
structure Macs where
  keyedHash : Bytes → Bytes → Bytes
  hmacSha256 : Bytes → Bytes → Bytes
  hmacSha384 : Bytes → Bytes → Bytes
  hmacSha512 : Bytes → Bytes → Bytes

structure SecretKey where
  key : Bytes
  algorithm : Algorithm

def SecretKey.hmac (k : SecretKey) (mac : Bytes → Bytes → Bytes) (message : Bytes) :
    Except Error Bytes :=
  if k.key.length < 16 then .error .invalidKey else .ok (mac k.key message)

def SecretKey.mac (macs : Macs) (k : SecretKey) (message : Bytes) : Except Error Bytes :=
  match k.algorithm with
  | .BLAKE3 =>
    if k.key.length = 32 then .ok (macs.keyedHash k.key message) else .error .invalidKey
  | .HS256 => k.hmac macs.hmacSha256 message
  | .HS384 => k.hmac macs.hmacSha384 message
  | .HS512 => k.hmac macs.hmacSha512 message
  | _ => .error .invalidKey

def Signature.tryFrom (value : Bytes) : Except Error Signature :=
  if h : value.length ≤ SIGNATURE_MAX_SIZE then .ok ⟨value, h⟩ else .error .invalidSignature

def SecretKey.signer (macs : Macs) (k : SecretKey) : Signer where
  algorithm := k.algorithm
  sign := fun message => do
    let mac ← k.mac macs message
    Signature.tryFrom mac

def SecretKey.verifier (macs : Macs) (k : SecretKey) : Verifier where
  algorithm := k.algorithm
  verify := fun message signature => do
    let mac ← k.mac macs message
    if mac = signature then .ok () else .error .invalidSignature

/-! ## Signing -/

def DOT : UInt8 := 46

section Tokens

variable (unit : VectorUnit) (T : Target) {C : Type} (serde : Serde C)

def sign (key : Signer) (header : Header) (claims : C) : Outcome Error Bytes :=
  if key.algorithm ≠ header.alg then .err .invalidKey
  else
    match serde.headerToString header with
    | none => .err .json
    | some headerJson =>
      match encode unit T headerJson .urlNoPadding with
      | none => .panic
      | some headerBase64 =>
        match serde.toString claims with
        | none => .err .json
        | some claimsJson =>
          match encode unit T claimsJson .urlNoPadding with
          | none => .panic
          | some claimsBase64 =>
            let message := headerBase64 ++ [DOT] ++ claimsBase64
            match key.sign message with
            | .error err => .err err
            | .ok signature =>
              match encode unit T signature.value .urlNoPadding with
              | none => .panic
              | some signatureBase64 => .ok (message ++ [DOT] ++ signatureBase64)

/-! ## Verification -/

def parseHeader (token : Bytes) : Except Error Header :=
  match token.splitOn DOT with
  | [headerBase64, _, _] =>
    match decode unit T headerBase64 .urlNoPadding with
    | .error _ => .error .invalidToken
    | .ok headerJson =>
      match serde.headerFromSlice headerJson with
      | none => .error .invalidToken
      | some header => .ok header
  | _ => .error .invalidToken

def verifySignature (key : Verifier) (header : Header) (token : Bytes)
    (options : VerifyOptions) : Except Error Bytes :=
  if (options.exp || options.nbf) && options.clock.isNone then .error .clockIsMissing
  else if header.alg ≠ key.algorithm then .error .invalidToken
  else
    match token.splitOn DOT with
    | [headerBase64, claimsBase64, signatureBase64] =>
      match decodeInto unit T (List.replicate SIGNATURE_MAX_SIZE 0) signatureBase64
          .urlNoPadding with
      | (.error _, _) => .error .invalidSignature
      | (.ok signatureSize, signatureBuffer) =>
        let signedMessage := token.take (headerBase64.length + 1 + claimsBase64.length)
        match key.verify signedMessage (signatureBuffer.take signatureSize) with
        | .error _ => .error .invalidSignature
        | .ok () =>
          match decode unit T claimsBase64 .urlNoPadding with
          | .error _ => .error .invalidToken
          | .ok claimsJson => .ok claimsJson
    | _ => .error .invalidToken

end Tokens

def subU64 (overflowChecks : Bool) (a b : UInt64) : Outcome Error UInt64 :=
  if overflowChecks && a < b then .panic else .ok (a - b)

def addU64 (overflowChecks : Bool) (a b : UInt64) : Outcome Error UInt64 :=
  if overflowChecks && 2 ^ 64 ≤ a.toNat + b.toNat then .panic else .ok (a + b)

def checkTime (enabled : Bool) (name : String) (clock : Option UInt64)
    (outside : UInt64 → UInt64 → Outcome Error Bool) (claims : Fields) : Outcome Error Unit :=
  if enabled then
    match claims.lookup name with
    | none => .err .invalidToken
    | some value =>
      match value.asU64 with
      | none => .err .invalidToken
      | some time =>
        match clock with
        | none => .panic
        | some now => do
            let bad ← outside now time
            if bad then .err .invalidToken else .ok ()
  else .ok ()

def expOutside (overflowChecks : Bool) (drift now exp : UInt64) : Outcome Error Bool := do
  let limit ← subU64 overflowChecks now drift
  .ok (exp < limit)

def nbfOutside (overflowChecks : Bool) (drift now nbf : UInt64) : Outcome Error Bool := do
  let limit ← addU64 overflowChecks now drift
  .ok (limit < nbf)

def checkExp (overflowChecks : Bool) (options : VerifyOptions) : Fields → Outcome Error Unit :=
  checkTime options.exp "exp" options.clock
    (expOutside overflowChecks options.allowedTimeDrift.secs)

def checkNbf (overflowChecks : Bool) (options : VerifyOptions) : Fields → Outcome Error Unit :=
  checkTime options.nbf "nbf" options.clock
    (nbfOutside overflowChecks options.allowedTimeDrift.secs)

def checkAllowed (allowed : Option (List String)) (name : String) (claims : Fields) :
    Outcome Error Unit :=
  match allowed with
  | none => .ok ()
  | some expected =>
    match claims.lookup name with
    | none => .err .invalidToken
    | some value =>
      match value.asStr with
      | none => .err .invalidToken
      | some text => if text ∈ expected then .ok () else .err .invalidToken

def checkAud (options : VerifyOptions) : Fields → Outcome Error Unit :=
  checkAllowed options.aud "aud"

def checkIss (options : VerifyOptions) : Fields → Outcome Error Unit :=
  checkAllowed options.iss "iss"

def checkClaims (overflowChecks : Bool) (options : VerifyOptions) (claims : Fields) :
    Outcome Error Unit := do
  checkExp overflowChecks options claims
  checkNbf overflowChecks options claims
  checkAud options claims
  checkIss options claims

def VerifyOptions.checksClaims (options : VerifyOptions) : Bool :=
  options.exp || options.nbf || options.aud.isSome || options.iss.isSome

/-- An optional result, as `map_err(|_| Error::InvalidToken)` makes it one. -/
def orInvalidToken {α : Type} : Option α → Outcome Error α
  | some value => .ok value
  | none => .err .invalidToken

section Tokens

variable (unit : VectorUnit) (T : Target) (overflowChecks : Bool) {C : Type} (serde : Serde C)

def parseClaims (options : VerifyOptions) (claimsJson : Bytes) : Outcome Error C :=
  if options.checksClaims then
    match serde.valueFromSlice claimsJson with
    | some (.object claims) => do
        checkClaims overflowChecks options claims
        orInvalidToken (serde.fromValue (.object claims))
    | _ => .err .invalidToken
  else orInvalidToken (serde.fromSlice claimsJson)

def parseAndVerify (key : Verifier) (header : Header) (token : Bytes)
    (options : VerifyOptions) : Outcome Error C :=
  match verifySignature unit T key header token options with
  | .error err => .err err
  | .ok claimsJson => parseClaims overflowChecks serde options claimsJson

end Tokens

end Stdx.Jwt
