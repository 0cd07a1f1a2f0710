import Stdx.Hpke.Kem
import Stdx.Foundation.Transition

/-!
# HPKE contexts

The sender's and the recipient's context and the channel between them.  Each side
counts the messages it sealed or opened; the count makes the nonce.
-/

namespace Stdx.Hpke

open Stdx.Foundation

/-! ## Nonces -/

/-- `nonce[start + i] ^= byte` for each octet. -/
@[grind =]
def xorAt (nonce : Bytes) : Nat → Bytes → Bytes
  | _, [] => nonce
  | start, byte :: bytes => xorAt (nonce.modify start (· ^^^ byte)) (start + 1) bytes

def computeNonce (A : Aead) (baseNonce : FixedBytes MAX_AEAD_NONCE_SIZE)
    (sequenceNumber : UInt64) : Bytes :=
  xorAt baseNonce.octets (A.nonceSize - 8) (fixedOctets 8 sequenceNumber.toNat)

theorem xorAt_getElem?_of_lt (nonce bytes : Bytes) (start i : Nat) (h : i < start) :
    (xorAt nonce start bytes)[i]? = nonce[i]? := by
  induction bytes generalizing nonce start with
  | nil => rfl
  | cons byte bytes ih =>
    have hne : start ≠ i := by omega
    rw [xorAt, ih _ _ (by omega), List.getElem?_modify]
    simp [hne]

theorem xorAt_getElem?_of_ge (nonce bytes : Bytes) (start i : Nat)
    (h : start + bytes.length ≤ i) : (xorAt nonce start bytes)[i]? = nonce[i]? := by
  induction bytes generalizing nonce start with
  | nil => rfl
  | cons byte bytes ih =>
    rw [List.length_cons] at h
    have hne : start ≠ i := by omega
    rw [xorAt, ih _ _ (by omega), List.getElem?_modify]
    simp [hne]

theorem xorAt_inj {nonce a b : Bytes} {start : Nat} (hlength : a.length = b.length)
    (hroom : start + a.length ≤ nonce.length) (h : xorAt nonce start a = xorAt nonce start b) :
    a = b := by
  induction a generalizing nonce start b with
  | nil => exact (List.length_eq_zero_iff.mp hlength.symm).symm
  | cons x xs ih =>
    cases b with
    | nil => simp at hlength
    | cons y ys =>
      rw [List.length_cons, List.length_cons] at hlength
      rw [List.length_cons] at hroom
      have hstart : start < nonce.length := by omega
      have hfirst := congrArg (·[start]?) h
      simp only [xorAt, xorAt_getElem?_of_lt _ _ _ _ (Nat.lt_succ_self start),
        List.getElem?_modify, if_true, List.getElem?_eq_getElem hstart,
        Option.map_eq_map, Option.map_some, Option.some.injEq] at hfirst
      have hxy : x = y := by
        have := congrArg (nonce[start] ^^^ ·) hfirst
        simpa [← UInt8.xor_assoc] using this
      subst hxy
      rw [ih (by omega) (by rw [List.length_modify]; omega) h]

theorem computeNonce_inj {A : Aead} {baseNonce : FixedBytes MAX_AEAD_NONCE_SIZE}
    (hsize : 8 ≤ A.nonceSize) {a b : UInt64}
    (h : (computeNonce A baseNonce a).take A.nonceSize =
      (computeNonce A baseNonce b).take A.nonceSize) : a = b := by
  have hmax := A.nonceSize_le_max
  have hwhole : computeNonce A baseNonce a = computeNonce A baseNonce b := by
    apply List.ext_getElem?
    intro i
    by_cases hi : i < A.nonceSize
    · have := congrArg (·[i]?) h
      simpa [List.getElem?_take, hi] using this
    · unfold computeNonce
      rw [xorAt_getElem?_of_ge _ _ _ _ (by rw [fixedOctets_length]; omega),
        xorAt_getElem?_of_ge _ _ _ _ (by rw [fixedOctets_length]; omega)]
  have hbytes := xorAt_inj (by simp) (by rw [fixedOctets_length, baseNonce.length_eq]; omega) hwhole
  have hvalue := congrArg beValue hbytes
  have ha := a.toNat_lt
  have hb := b.toNat_lt
  rw [beValue_fixedOctets, beValue_fixedOctets] at hvalue
  exact UInt64.toNat_inj.mp (by omega)

/-! ## Contexts -/

structure Context (A : Aead) where
  aead : A.Cipher
  suiteId : Bytes
  baseNonce : FixedBytes MAX_AEAD_NONCE_SIZE
  sequenceNumber : UInt64
  exporterSecret : Bytes

/-- `u64::MAX` -/
def MAX_SEQUENCE_NUMBER : UInt64 := 0xffffffffffffffff

section

variable {A : Aead}

def Context.nonce (c : Context A) : Bytes :=
  (computeNonce A c.baseNonce c.sequenceNumber).take A.nonceSize

def Context.sealInPlace (c : Context A) (inOut associatedData : Bytes) :
    Except HpkeError (Bytes × Bytes) × Context A :=
  if A.nonceSize < 8 ∨ A.tagSize = 0 then (.error .notSupported, c)
  else if A.maxPlaintextSize.toNat < inOut.length then (.error .messageLimitReached, c)
  else if c.sequenceNumber = MAX_SEQUENCE_NUMBER then (.error .messageLimitReached, c)
  else
    match A.encryptInPlace c.aead inOut c.nonce associatedData with
    | .error err => (.error err, c)
    | .ok sealed => (.ok sealed, { c with sequenceNumber := c.sequenceNumber + 1 })

def Context.seal (c : Context A) (plaintext associatedData : Bytes) :
    Except HpkeError Bytes × Context A :=
  match c.sealInPlace plaintext associatedData with
  | (.error err, c') => (.error err, c')
  | (.ok (ciphertext, tag), c') => (.ok (ciphertext ++ tag), c')

def Context.openInPlace (c : Context A) (inOut associatedData tag : Bytes) :
    Except HpkeError Bytes × Context A :=
  if A.nonceSize < 8 ∨ A.tagSize = 0 then (.error .notSupported, c)
  else if A.maxCiphertextSize.toNat < min (inOut.length + tag.length) (2 ^ 64 - 1) then
    (.error .messageLimitReached, c)
  else
    match A.decryptInPlace c.aead inOut c.nonce associatedData tag with
    | .error err => (.error err, c)
    | .ok plaintext =>
      if c.sequenceNumber = MAX_SEQUENCE_NUMBER then (.error .messageLimitReached, c)
      else (.ok plaintext, { c with sequenceNumber := c.sequenceNumber + 1 })

def Context.open (c : Context A) (ciphertext associatedData : Bytes) :
    Except HpkeError Bytes × Context A :=
  if ciphertext.length < A.tagSize then (.error .openError, c)
  else
    let plaintextLen := ciphertext.length - A.tagSize
    c.openInPlace (ciphertext.take plaintextLen) associatedData (ciphertext.drop plaintextLen)

def SEC : Bytes := [115, 101, 99]

def Context.export (D : Kdf) (c : Context A) (n : Nat) (exporterContext : Bytes) :
    Except HpkeError (FixedBytes n) :=
  if D.singleStage then D.labeledDerive n [c.exporterSecret] c.suiteId SEC [exporterContext]
  else D.labeledExpand n c.exporterSecret c.suiteId SEC exporterContext

/-! ## Set-up -/

variable (K : Kem) (D : Kdf) (A)

def ciphersuiteId : Bytes :=
  [72, 80, 75, 69] ++ u16Octets K.HPKE_KEM_ID.toNat ++ u16Octets D.HPKE_KDF_ID.toNat ++
    u16Octets A.HPKE_AEAD_ID.toNat

def setUp (mode : UInt8) (sharedSecret info preSharedKey preSharedKeyId : Bytes) :
    Outcome HpkeError (Context A) := do
  let suiteId := ciphersuiteId A K D
  let scheduled ← keySchedule D A mode suiteId sharedSecret info preSharedKey preSharedKeyId
  .ok ⟨scheduled.aead, suiteId, scheduled.baseNonce, 0, scheduled.exporterSecret⟩

def newSender (randomness : K.Randomness) (mode : Mode) (recipientPublicKey : K.PublicKey)
    (info : Bytes) : Outcome HpkeError (K.EncappedKey × Context A) := do
  let (modeId, preSharedKey, preSharedKeyId) ← ofResult mode.validateAndGetParts
  let (sharedSecret, encappedKey) ← ofResult (K.encap randomness recipientPublicKey)
  let context ← setUp A K D modeId sharedSecret info preSharedKey preSharedKeyId
  .ok (encappedKey, context)

def newRecipient (mode : Mode) (recipientSecretKey : K.SecretKey) (encappedKey : K.EncappedKey)
    (info : Bytes) : Outcome HpkeError (Context A) := do
  let (modeId, preSharedKey, preSharedKeyId) ← ofResult mode.validateAndGetParts
  let sharedSecret ← ofResult (K.decap encappedKey recipientSecretKey)
  setUp A K D modeId sharedSecret info preSharedKey preSharedKeyId

end

end Stdx.Hpke
