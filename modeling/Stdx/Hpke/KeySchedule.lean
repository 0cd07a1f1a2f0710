import Stdx.Foundation.Octets
import Stdx.Foundation.Outcome

/-!
# The HPKE key schedule

The labelled derivations over HMAC and over an extendable-output function, and the two
key schedules built from them.  The schedules take any KDF and any AEAD.
-/

namespace Stdx.Hpke

open Stdx.Foundation

inductive HpkeError where
  | validationError
  | deserializeError
  | encapError
  | decapError
  | openError
  | deriveKeyPairError
  | messageLimitReached
  | notSupported
  | invalidPseudorandomKey
  | invalidKey
  | kdfOutputTooLong
  | random
  | unspecified
  deriving DecidableEq

def MAX_HASH_OUTPUT_SIZE : Nat := 64
def MAX_AEAD_KEY_SIZE : Nat := 64
def MAX_AEAD_NONCE_SIZE : Nat := 64

def VERSION_LABEL : Bytes := [72, 80, 75, 69, 45, 118, 49]

def u16Octets (n : Nat) : Bytes := fixedOctets 2 n

/-! ## Key derivation functions -/

/-- `trait Kdf`; an output buffer of `n` octets is filled with `n` octets. -/
structure Kdf where
  HPKE_KDF_ID : UInt16
  outputSize : Nat
  outputSize_le : outputSize ≤ MAX_HASH_OUTPUT_SIZE
  singleStage : Bool
  labeledExtract : (salt suiteId label inputKeyingMaterial : Bytes) → Bytes
  labeledExpand : (n : Nat) → (pseudorandomKey suiteId label info : Bytes) →
    Except HpkeError (FixedBytes n)
  labeledDerive : (n : Nat) → (inputKeyingMaterial : List Bytes) → (suiteId label : Bytes) →
    (context : List Bytes) → Except HpkeError (FixedBytes n)

section Hkdf

-- `Hmac::<H>::mac`, with an output of `size` octets
variable {size : Nat} (hmac : Bytes → Bytes → FixedBytes size)

def labeledExtract (salt suiteId label inputKeyingMaterial : Bytes) : Bytes :=
  (hmac salt (VERSION_LABEL ++ suiteId ++ label ++ inputKeyingMaterial)).octets

def expandBlocks (pseudorandomKey suiteId label info : Bytes) (n : Nat) :
    Nat → Nat → UInt8 → Bytes → Bytes
  | 0, _, _, _ => []
  | fuel + 1, left, counter, t =>
    if left = 0 then []
    else
      let block := (hmac pseudorandomKey
        (t ++ u16Octets n ++ VERSION_LABEL ++ suiteId ++ label ++ info ++ [counter])).octets
      block.take (min left size) ++
        expandBlocks pseudorandomKey suiteId label info n fuel (left - min left size)
          (counter + 1) block

theorem expandBlocks_length (pseudorandomKey suiteId label info : Bytes)
    (n fuel left : Nat) (counter : UInt8) (t : Bytes) (hfuel : left ≤ fuel * size) :
    (expandBlocks hmac pseudorandomKey suiteId label info n fuel left counter t).length =
      left := by
  induction fuel generalizing left counter t with
  | zero =>
    have hleft : left = 0 := by simpa using hfuel
    simp [expandBlocks, hleft]
  | succ fuel ih =>
    unfold expandBlocks
    split
    · next hleft => simp [hleft]
    · simp only [List.length_append, List.length_take, FixedBytes.length_eq]
      rw [Nat.succ_mul] at hfuel
      rw [ih _ _ _ (by omega)]
      omega

def labeledExpand (n : Nat) (pseudorandomKey suiteId label info : Bytes) :
    Except HpkeError (FixedBytes n) :=
  if pseudorandomKey.length ≠ size then .error .invalidPseudorandomKey
  else if h : n ≤ 255 * size then
    .ok ⟨expandBlocks hmac pseudorandomKey suiteId label info n 255 n 1 [],
      expandBlocks_length hmac _ _ _ _ _ _ _ _ _ h⟩
  else .error .kdfOutputTooLong

def hkdf (id : UInt16) (hmax : size ≤ MAX_HASH_OUTPUT_SIZE) : Kdf where
  HPKE_KDF_ID := id
  outputSize := size
  outputSize_le := hmax
  singleStage := false
  labeledExtract := labeledExtract hmac
  labeledExpand := labeledExpand hmac
  labeledDerive := fun _ _ _ _ _ => .error .notSupported

end Hkdf

def deriveInput (n : Nat) (inputKeyingMaterial : List Bytes) (suiteId label : Bytes)
    (context : List Bytes) : Bytes :=
  inputKeyingMaterial.flatten ++ VERSION_LABEL ++ suiteId ++ u16Octets label.length ++ label ++
    u16Octets n ++ context.flatten

/-- `labeled_derive` of `Shake256` and `Blake3`: `xof` squeezes `n` octets after
absorbing. -/
def xofDerive (xof : Bytes → (n : Nat) → FixedBytes n) (n : Nat)
    (inputKeyingMaterial : List Bytes) (suiteId label : Bytes) (context : List Bytes) :
    Except HpkeError (FixedBytes n) :=
  if n > 65535 then .error .kdfOutputTooLong
  else if label.length > 65535 then .error .validationError
  else .ok (xof (deriveInput n inputKeyingMaterial suiteId label context) n)

def xofKdf (xof : Bytes → (n : Nat) → FixedBytes n) (twoStage : Kdf) : Kdf :=
  { twoStage with singleStage := true, labeledDerive := xofDerive xof }

/-! ## AEADs -/

/-- `trait Aead`, whose `seal` and `open` forward to the two functions that work in
place: they return what the buffer holds afterwards, the first one with the tag. -/
structure Aead where
  Cipher : Type
  HPKE_AEAD_ID : UInt16
  keySize : Nat
  tagSize : Nat
  nonceSize : Nat
  maxPlaintextSize : UInt64
  maxCiphertextSize : UInt64
  keySize_le : keySize ≤ MAX_AEAD_KEY_SIZE
  nonceSize_le : nonceSize = 0 ∨ 8 ≤ nonceSize ∧ nonceSize ≤ MAX_AEAD_NONCE_SIZE
  new : Bytes → Except HpkeError Cipher
  encryptInPlace : Cipher → (inOut nonce associatedData : Bytes) →
    Except HpkeError (Bytes × Bytes)
  decryptInPlace : Cipher → (inOut nonce associatedData tag : Bytes) → Except HpkeError Bytes

/-- Opening inverts sealing and rejects everything else. -/
structure Aead.Lawful (A : Aead) : Prop where
  encrypt_length : ∀ {cipher inOut nonce associatedData out tag},
    A.encryptInPlace cipher inOut nonce associatedData = .ok (out, tag) →
      out.length = inOut.length ∧ tag.length = A.tagSize
  decrypt_encrypt : ∀ {cipher inOut nonce associatedData out tag},
    A.encryptInPlace cipher inOut nonce associatedData = .ok (out, tag) →
      A.decryptInPlace cipher out nonce associatedData tag = .ok inOut
  rejects : ∀ {cipher out nonce associatedData tag inOut},
    A.decryptInPlace cipher out nonce associatedData tag = .ok inOut →
      A.encryptInPlace cipher inOut nonce associatedData = .ok (out, tag)

theorem Aead.nonceSize_le_max (A : Aead) : A.nonceSize ≤ MAX_AEAD_NONCE_SIZE := by
  obtain h | h := A.nonceSize_le
  · omega
  · exact h.2

/-! ## Modes -/

inductive Mode where
  | base
  | preSharedKey (preSharedKey preSharedKeyId : Bytes)

def MODE_BASE : UInt8 := 0x00
def MODE_PRE_SHARED_KEY : UInt8 := 0x01

def Mode.validateAndGetParts : Mode → Except HpkeError (UInt8 × Bytes × Bytes)
  | .base => .ok (MODE_BASE, [], [])
  | .preSharedKey key keyId =>
    if key = [] ∨ keyId = [] then .error .validationError
    else .ok (MODE_PRE_SHARED_KEY, key, keyId)

/-! ## The two schedules -/

structure KeySchedule (A : Aead) where
  aead : A.Cipher
  baseNonce : FixedBytes MAX_AEAD_NONCE_SIZE
  exporterSecret : Bytes

def baseNonce (A : Aead) (nonce : FixedBytes A.nonceSize) : FixedBytes MAX_AEAD_NONCE_SIZE where
  octets := nonce.octets ++ List.replicate (MAX_AEAD_NONCE_SIZE - A.nonceSize) 0
  length_eq := by
    have := A.nonceSize_le_max
    rw [List.length_append, nonce.length_eq, List.length_replicate]
    omega

/-- `?` on a result inside code that may also panic. -/
def ofResult {α : Type} : Except HpkeError α → Outcome HpkeError α
  | .ok value => .ok value
  | .error err => .err err

section Schedules

variable (D : Kdf) (A : Aead)

/-- What the single-stage schedule hands to `labeled_derive`: the input keying material
and the context. -/
def singleStageParts (mode : UInt8) (sharedSecret info preSharedKey preSharedKeyId : Bytes) :
    List Bytes × List Bytes :=
  ([u16Octets preSharedKey.length, preSharedKey, u16Octets sharedSecret.length, sharedSecret],
    [[mode], u16Octets preSharedKeyId.length, preSharedKeyId, u16Octets info.length, info])

def SECRET : Bytes := [115, 101, 99, 114, 101, 116]

def splitSecret (secret : FixedBytes (A.keySize + A.nonceSize + D.outputSize)) :
    FixedBytes A.nonceSize where
  octets := (secret.octets.drop A.keySize).take A.nonceSize
  length_eq := by
    rw [List.length_take, List.length_drop, secret.length_eq]
    omega

def singleStageKeySchedule (mode : UInt8) (suiteId sharedSecret info preSharedKey
    preSharedKeyId : Bytes) : Outcome HpkeError (KeySchedule A) := do
  if !D.singleStage then .err .notSupported
  else if preSharedKey.length > 65535 || sharedSecret.length > 65535 ||
      preSharedKeyId.length > 65535 || info.length > 65535 then .err .validationError
  else
    let parts := singleStageParts mode sharedSecret info preSharedKey preSharedKeyId
    let secret ← ofResult
      (D.labeledDerive (A.keySize + A.nonceSize + D.outputSize) parts.1 suiteId SECRET parts.2)
    let aead ← ofResult (A.new (secret.octets.take A.keySize))
    .ok ⟨aead, baseNonce A (splitSecret D A secret),
      secret.octets.drop (A.keySize + A.nonceSize)⟩

def PSK_ID_HASH : Bytes := [112, 115, 107, 95, 105, 100, 95, 104, 97, 115, 104]
def INFO_HASH : Bytes := [105, 110, 102, 111, 95, 104, 97, 115, 104]
def KEY : Bytes := [107, 101, 121]
def BASE_NONCE : Bytes := [98, 97, 115, 101, 95, 110, 111, 110, 99, 101]
def EXP : Bytes := [101, 120, 112]

def keySchedule (mode : UInt8) (suiteId sharedSecret info preSharedKey preSharedKeyId : Bytes) :
    Outcome HpkeError (KeySchedule A) := do
  if D.singleStage then
    singleStageKeySchedule D A mode suiteId sharedSecret info preSharedKey preSharedKeyId
  else
    let preSharedKeyIdHash := D.labeledExtract [] suiteId PSK_ID_HASH preSharedKeyId
    let infoHash := D.labeledExtract [] suiteId INFO_HASH info
    if preSharedKeyIdHash.length ≠ D.outputSize ∨ infoHash.length ≠ D.outputSize then .panic
    else
      let context := [mode] ++ preSharedKeyIdHash ++ infoHash
      let secret := D.labeledExtract sharedSecret suiteId SECRET preSharedKey
      let key ← ofResult (D.labeledExpand A.keySize secret suiteId KEY context)
      let aead ← ofResult (A.new key.octets)
      let nonce ← ofResult (D.labeledExpand A.nonceSize secret suiteId BASE_NONCE context)
      let exporterSecret ← ofResult (D.labeledExpand D.outputSize secret suiteId EXP context)
      .ok ⟨aead, baseNonce A nonce, exporterSecret.octets⟩

end Schedules

/-! ## The single-stage input is unambiguous -/

theorem prefixed_inj {a b restA restB : Bytes} (ha : a.length ≤ 65535) (hb : b.length ≤ 65535)
    (h : u16Octets a.length ++ a ++ restA = u16Octets b.length ++ b ++ restB) :
    a = b ∧ restA = restB := by
  rw [List.append_assoc, List.append_assoc] at h
  obtain ⟨hlength, hrest⟩ := List.append_inj h (by simp [u16Octets])
  have hvalue := congrArg beValue hlength
  simp only [u16Octets, beValue_fixedOctets] at hvalue
  exact List.append_inj hrest (by omega)

def singleStageInput (n : Nat) (mode : UInt8) (suiteId sharedSecret info preSharedKey
    preSharedKeyId : Bytes) : Bytes :=
  let parts := singleStageParts mode sharedSecret info preSharedKey preSharedKeyId
  deriveInput n parts.1 suiteId SECRET parts.2

theorem xofDerive_singleStage (xof : Bytes → (n : Nat) → FixedBytes n) {n : Nat}
    (hn : n ≤ 65535) (mode : UInt8) (suiteId sharedSecret info preSharedKey
      preSharedKeyId : Bytes) :
    xofDerive xof n (singleStageParts mode sharedSecret info preSharedKey preSharedKeyId).1
        suiteId SECRET (singleStageParts mode sharedSecret info preSharedKey preSharedKeyId).2 =
      .ok (xof (singleStageInput n mode suiteId sharedSecret info preSharedKey
        preSharedKeyId) n) := by
  have hlabel : ¬SECRET.length > 65535 := by decide
  rw [xofDerive, if_neg (by omega), if_neg hlabel]
  rfl

/-- The inputs the schedule lets through. -/
def WithinLimits (sharedSecret info preSharedKey preSharedKeyId : Bytes) : Prop :=
  preSharedKey.length ≤ 65535 ∧ sharedSecret.length ≤ 65535 ∧ preSharedKeyId.length ≤ 65535 ∧
    info.length ≤ 65535

theorem singleStageInput_inj {n : Nat} {suiteId : Bytes} {mode mode' : UInt8}
    {sharedSecret info preSharedKey preSharedKeyId sharedSecret' info' preSharedKey'
      preSharedKeyId' : Bytes}
    (hlimits : WithinLimits sharedSecret info preSharedKey preSharedKeyId)
    (hlimits' : WithinLimits sharedSecret' info' preSharedKey' preSharedKeyId')
    (h : singleStageInput n mode suiteId sharedSecret info preSharedKey preSharedKeyId =
      singleStageInput n mode' suiteId sharedSecret' info' preSharedKey' preSharedKeyId') :
    mode = mode' ∧ preSharedKey = preSharedKey' ∧ preSharedKeyId = preSharedKeyId' ∧
      info = info' ∧ sharedSecret = sharedSecret' := by
  obtain ⟨hpsk, hsecret, hid, hinfo⟩ := hlimits
  obtain ⟨hpsk', hsecret', hid', hinfo'⟩ := hlimits'
  simp only [singleStageInput, singleStageParts, deriveInput, List.flatten_cons,
    List.flatten_nil, List.append_nil, List.append_assoc] at h
  obtain ⟨rfl, h⟩ := prefixed_inj hpsk hpsk' (by simpa using h)
  obtain ⟨rfl, h⟩ := prefixed_inj hsecret hsecret' (by simpa using h)
  -- the version label, the suite, the label and the output length are the same
  have hcontext := List.append_cancel_left (List.append_cancel_left (List.append_cancel_left
    (List.append_cancel_left (List.append_cancel_left h))))
  obtain ⟨hmode, hcontext⟩ : mode = mode' ∧ _ := by simpa using hcontext
  obtain ⟨rfl, hcontext⟩ := prefixed_inj hid hid' (by simpa using hcontext)
  obtain ⟨rfl, -⟩ := @prefixed_inj _ _ [] [] hinfo hinfo' (by simpa using hcontext)
  exact ⟨hmode, rfl, rfl, rfl, rfl⟩

end Stdx.Hpke
