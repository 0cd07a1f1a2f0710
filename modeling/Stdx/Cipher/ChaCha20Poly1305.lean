import Mathlib
import Stdx.Cipher.ChaCha
import Stdx.Cipher.AesGcm
import Stdx.Mac.Poly1305

/-!
# ChaCha20-Poly1305 and XChaCha20-Poly1305

The two ciphers of `crypto/src/chacha/chacha20_poly1305.rs`.  A `none` is a panic: a
failed assertion, or an arithmetic overflow in the authenticator.
-/

namespace Stdx.Cipher

open Stdx.Foundation Stdx.Mac

/-! ## The authenticator -/

def updatePoly1305Padded (mac : Poly1305) (data : Bytes) : Option Poly1305 := do
  let mac ← mac.update data
  let rem := data.length % 16
  if rem ≠ 0 then mac.update (List.replicate (16 - rem) 0) else some mac

def poly1305Tag (otk : FixedBytes 32) (aad inOut : Bytes) : Option Bytes := do
  let mac ← updatePoly1305Padded (.new otk) aad
  let mac ← updatePoly1305Padded mac inOut
  let mac ← mac.update (leOctets 8 (aad.length % 2 ^ 64))
  let mac ← mac.update (leOctets 8 (inOut.length % 2 ^ 64))
  mac.finalize

def oneTimeKey (cipher : ChaCha 20 true) : Option (FixedBytes 32 × ChaCha 20 true) := do
  let (cipher, block) ← cipher.xorKeystream (List.replicate 64 0)
  if h : 32 ≤ block.length then some (⟨block.take 32, by simp; omega⟩, cipher) else none

/-! ## ChaCha20-Poly1305 -/

structure ChaCha20Poly1305 where
  key : FixedBytes 32

namespace ChaCha20Poly1305

def polyKeyGen (aead : ChaCha20Poly1305) (nonce : FixedBytes 12) :
    Option (FixedBytes 32 × ChaCha 20 true) :=
  oneTimeKey ((ChaCha.new aead.key nonce : ChaCha 20 true).setCounter 0#32)

def encryptInPlace (aead : ChaCha20Poly1305) (inOut nonce aad : Bytes) :
    Option (Bytes × Bytes) :=
  if inOut.length ≤ CHACHA20_IETF_MAX_LEN then
    if hnonce : nonce.length = 12 then do
      let (polyKey, cipher) ← aead.polyKeyGen ⟨nonce, hnonce⟩
      let (_, inOut) ← (cipher.setCounter 1#32).xorKeystream inOut
      let tag ← poly1305Tag polyKey aad inOut
      some (tag, inOut)
    else none
  else none

def decryptInPlace (aead : ChaCha20Poly1305) (inOut nonce aad tag : Bytes) :
    Option (Except AeadError Unit × Bytes) :=
  if inOut.length > CHACHA20_IETF_MAX_LEN then some (.error .invalidCiphertext, inOut)
  else if tag.length ≠ 16 then some (.error .invalidCiphertext, inOut)
  else if hnonce : nonce.length = 12 then do
    let (polyKey, cipher) ← aead.polyKeyGen ⟨nonce, hnonce⟩
    let computed ← poly1305Tag polyKey aad inOut
    if computed ≠ tag then some (.error .invalidCiphertext, inOut)
    else
      let (_, inOut) ← (cipher.setCounter 1#32).xorKeystream inOut
      some (.ok (), inOut)
  else some (.error .invalidNonce, inOut)

end ChaCha20Poly1305

/-! ## XChaCha20-Poly1305 -/

structure XChaCha20Poly1305 where
  key : FixedBytes 32

namespace XChaCha20Poly1305

def deriveSubkey (aead : XChaCha20Poly1305) (nonce : FixedBytes 24) :
    FixedBytes 32 × FixedBytes 12 :=
  have hnonce := nonce.length_eq
  (hchacha20 aead.key ⟨nonce.octets.take 16, by simp [hnonce]⟩,
    ⟨[0, 0, 0, 0] ++ nonce.octets.drop 16, by simp [hnonce]⟩)

def encryptInPlace (aead : XChaCha20Poly1305) (inOut nonce aad : Bytes) :
    Option (Bytes × Bytes) :=
  if inOut.length ≤ CHACHA20_IETF_MAX_LEN then
    if hnonce : nonce.length = 24 then do
      let (subkey, ietfNonce) := aead.deriveSubkey ⟨nonce, hnonce⟩
      let (otk, _) ← oneTimeKey ((ChaCha.new subkey ietfNonce : ChaCha 20 true).setCounter 0#32)
      let cipher := (ChaCha.new subkey ietfNonce : ChaCha 20 true).setCounter 1#32
      let (_, inOut) ← cipher.xorKeystream inOut
      let tag ← poly1305Tag otk aad inOut
      some (tag, inOut)
    else none
  else none

/-- On a tag that does not match the buffer is cleared, as the source has it. -/
def decryptInPlace (aead : XChaCha20Poly1305) (inOut nonce aad tag : Bytes) :
    Option (Except AeadError Unit × Bytes) :=
  if inOut.length > CHACHA20_IETF_MAX_LEN then some (.error .invalidCiphertext, inOut)
  else if tag.length ≠ 16 then some (.error .invalidCiphertext, inOut)
  else if hnonce : nonce.length = 24 then do
    let (subkey, ietfNonce) := aead.deriveSubkey ⟨nonce, hnonce⟩
    let (otk, _) ← oneTimeKey ((ChaCha.new subkey ietfNonce : ChaCha 20 true).setCounter 0#32)
    let cipher := (ChaCha.new subkey ietfNonce : ChaCha 20 true).setCounter 1#32
    let computed ← poly1305Tag otk aad inOut
    if computed ≠ tag then
      some (.error .invalidCiphertext, List.replicate inOut.length 0)
    else
      let (_, inOut) ← cipher.xorKeystream inOut
      some (.ok (), inOut)
  else some (.error .invalidNonce, inOut)

end XChaCha20Poly1305

end Stdx.Cipher
