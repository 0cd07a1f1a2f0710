import Stdx.Foundation.Padding
import Stdx.Cipher.ChaCha
import Stdx.Cipher.ChaCha20Poly1305
import Stdx.Mac.Poly1305Correct

/-!
# Authenticated ciphers

What the three ciphers have in common: a keystream that depends on the key and the
nonce, and a tag of a string that determines the associated data and the ciphertext.
They differ in what a tag that does not match does to the buffer.
-/

namespace Stdx.Cipher

open Stdx.Foundation Stdx.Mac

/-- The trait `Aead` for a fixed key, with the string the tag is computed of. -/
structure Aead where
  nonceSize : Nat
  maxLen : Nat
  macInput : Bytes → Bytes → Bytes
  encryptInPlace : Bytes → Bytes → Bytes → Option (Bytes × Bytes)
  decryptInPlace : Bytes → Bytes → Bytes → Bytes → Option (Except AeadError Unit × Bytes)

namespace Aead

/-- What the calls with one nonce do: a keystream, a tag of `macInput`, and the buffer
`onMismatch` leaves when the tag is another one. -/
structure Keyed (aead : Aead) (onMismatch : Bytes → Bytes) (nonce : Bytes)
    (stream : Nat → Nat → UInt8) (mac : Bytes → Bytes) : Prop where
  mac_length : ∀ message, (mac message).length = 16
  encrypt_eq : ∀ inOut aad, inOut.length ≤ aead.maxLen →
    aead.encryptInPlace inOut nonce aad =
      some (mac (aead.macInput aad (xorFrom (stream inOut.length) 0 inOut)),
        xorFrom (stream inOut.length) 0 inOut)
  decrypt_eq : ∀ inOut aad tag, inOut.length ≤ aead.maxLen → tag.length = 16 →
    aead.decryptInPlace inOut nonce aad tag =
      if mac (aead.macInput aad inOut) = tag
        then some (.ok (), xorFrom (stream inOut.length) 0 inOut)
        else some (.error .invalidCiphertext, onMismatch inOut)

structure Contract (aead : Aead) (onMismatch : Bytes → Bytes) : Prop where
  /-- Encryption returns within the limits, and decryption then gives the plaintext back. -/
  restores : ∀ inOut nonce aad, inOut.length ≤ aead.maxLen → nonce.length = aead.nonceSize →
    ∃ tag ciphertext, aead.encryptInPlace inOut nonce aad = some (tag, ciphertext) ∧
      aead.decryptInPlace ciphertext nonce aad tag = some (.ok (), inOut)
  /-- Outside of them it panics. -/
  refuses : ∀ inOut nonce aad,
    ¬ (inOut.length ≤ aead.maxLen ∧ nonce.length = aead.nonceSize) →
      aead.encryptInPlace inOut nonce aad = none
  /-- Decryption never panics. -/
  returns : ∀ inOut nonce aad tag, aead.decryptInPlace inOut nonce aad tag ≠ none
  /-- A failure that is found before the tag is compared leaves the buffer. -/
  early : ∀ inOut nonce aad tag error buffer,
    aead.decryptInPlace inOut nonce aad tag = some (.error error, buffer) →
    (aead.maxLen < inOut.length ∨ tag.length ≠ 16 ∨ nonce.length ≠ aead.nonceSize) →
      buffer = inOut
  /-- A failure of the comparison leaves `onMismatch` of it. -/
  late : ∀ inOut nonce aad tag error buffer,
    aead.decryptInPlace inOut nonce aad tag = some (.error error, buffer) →
    inOut.length ≤ aead.maxLen → tag.length = 16 → nonce.length = aead.nonceSize →
      error = .invalidCiphertext ∧ buffer = onMismatch inOut
  /-- The tag is a function of the string, which determines data and ciphertext. -/
  authenticates : ∀ nonce, nonce.length = aead.nonceSize →
    ∃ mac : Bytes → Bytes, ∀ inOut aad tag ciphertext,
      aead.encryptInPlace inOut nonce aad = some (tag, ciphertext) →
        tag = mac (aead.macInput aad ciphertext)
  injective : ∀ aad ciphertext aad' ciphertext', ciphertext.length ≤ aead.maxLen →
    ciphertext'.length ≤ aead.maxLen →
    aead.macInput aad ciphertext = aead.macInput aad' ciphertext' →
      aad = aad' ∧ ciphertext = ciphertext'

variable {aead : Aead} {onMismatch : Bytes → Bytes}

theorem Contract.of_keyed
    (hkeyed : ∀ nonce, nonce.length = aead.nonceSize →
      ∃ stream mac, aead.Keyed onMismatch nonce stream mac)
    (hrefuses : ∀ inOut nonce aad,
      ¬ (inOut.length ≤ aead.maxLen ∧ nonce.length = aead.nonceSize) →
        aead.encryptInPlace inOut nonce aad = none)
    (hearly : ∀ inOut nonce aad tag,
      (aead.maxLen < inOut.length ∨ tag.length ≠ 16 ∨ nonce.length ≠ aead.nonceSize) →
        ∃ error, aead.decryptInPlace inOut nonce aad tag = some (.error error, inOut))
    (hinjective : ∀ aad ciphertext aad' ciphertext', ciphertext.length ≤ aead.maxLen →
      ciphertext'.length ≤ aead.maxLen →
      aead.macInput aad ciphertext = aead.macInput aad' ciphertext' →
        aad = aad' ∧ ciphertext = ciphertext') :
    aead.Contract onMismatch where
  restores := by
    intro inOut nonce aad hlength hnonce
    obtain ⟨stream, mac, h⟩ := hkeyed nonce hnonce
    refine ⟨_, _, h.encrypt_eq inOut aad hlength, ?_⟩
    rw [h.decrypt_eq _ aad _ (by rwa [xorFrom_length]) (h.mac_length _), if_pos rfl,
      xorFrom_length, xorFrom_xorFrom]
  refuses := hrefuses
  returns := by
    intro inOut nonce aad tag hnone
    by_cases hbad : aead.maxLen < inOut.length ∨ tag.length ≠ 16 ∨
        nonce.length ≠ aead.nonceSize
    · obtain ⟨error, herror⟩ := hearly inOut nonce aad tag hbad
      rw [hnone] at herror
      cases herror
    · obtain ⟨stream, mac, h⟩ := hkeyed nonce (by tauto)
      rw [h.decrypt_eq inOut aad tag (by omega) (by tauto)] at hnone
      split at hnone <;> cases hnone
  early := by
    intro inOut nonce aad tag error buffer hdecrypt hbad
    obtain ⟨error', herror⟩ := hearly inOut nonce aad tag hbad
    rw [hdecrypt, Option.some.injEq, Prod.mk.injEq] at herror
    exact herror.2
  late := by
    intro inOut nonce aad tag error buffer hdecrypt hlength htag hnonce
    obtain ⟨stream, mac, h⟩ := hkeyed nonce hnonce
    rw [h.decrypt_eq inOut aad tag hlength htag] at hdecrypt
    split at hdecrypt
    · cases hdecrypt
    · cases hdecrypt
      exact ⟨rfl, rfl⟩
  authenticates := by
    intro nonce hnonce
    obtain ⟨stream, mac, h⟩ := hkeyed nonce hnonce
    refine ⟨mac, fun inOut aad tag ciphertext hencrypt => ?_⟩
    by_cases hlength : inOut.length ≤ aead.maxLen
    · rw [h.encrypt_eq inOut aad hlength, Option.some.injEq, Prod.mk.injEq] at hencrypt
      obtain ⟨rfl, rfl⟩ := hencrypt
      rfl
    · rw [hrefuses inOut nonce aad fun hok => hlength hok.1] at hencrypt
      cases hencrypt
  injective := hinjective

end Aead

/-! ## The ChaCha20 ciphers -/

theorem ChaCha.At.setCounter {ROUNDS : Nat} {base : State} {counter p : Nat}
    {cipher : ChaCha ROUNDS true} (h : cipher.At base counter p) (start : BitVec 32) :
    (cipher.setCounter start).At base start.toNat 0 := by
  constructor
  case words =>
    intro c
    exact (injectCounter_injectCounter _ _ c).trans (h.words c)
  case counter_eq => exact extractCounter_injectCounter _ _
  case offset => rfl
  case leftover => exact fun hpart => absurd hpart (by decide)
  case bound => exact fun _ => Nat.le_of_lt_succ start.isLt

theorem oneTimeKey_spec {base : State} {cipher : ChaCha 20 true} (h : cipher.At base 0 0) :
    ∃ otk cipher', oneTimeKey cipher = some (otk, cipher') ∧ cipher'.At base 0 64 := by
  have hcall := ChaCha.xorKeystream_spec h (List.replicate 64 0)
  rw [if_neg (by rintro ⟨-, hlt⟩; revert hlt; decide)] at hcall
  obtain ⟨cipher', hxor, hat⟩ := hcall
  have hlength : 32 ≤ (xorFrom (keystream 20 true base 0) 0 (List.replicate 64 0)).length := by
    rw [xorFrom_length, List.length_replicate]
    decide
  refine ⟨⟨(xorFrom (keystream 20 true base 0) 0 (List.replicate 64 0)).take 32, by
    simp⟩, cipher', ?_, hat⟩
  rw [oneTimeKey, hxor]
  simp only [Option.bind_eq_bind, Option.bind_some, dif_pos hlength]

theorem xorKeystream_message {base : State} {cipher : ChaCha 20 true}
    (h : cipher.At base 1 0) {data : Bytes} (hlength : data.length ≤ CHACHA20_IETF_MAX_LEN) :
    ∃ cipher', cipher.xorKeystream data =
      some (cipher', xorFrom (keystream 20 true base 1) 0 data) := by
  have hcall := ChaCha.xorKeystream_spec h data
  rw [if_neg (by
    rintro ⟨-, hlt⟩
    simp only [CHACHA20_IETF_MAX_LEN, BLOCK_SIZE, U32_MAX, blocksFor] at hlength hlt
    omega)] at hcall
  obtain ⟨cipher', hxor, -⟩ := hcall
  exact ⟨cipher', hxor⟩

def poly1305Input (aad ciphertext : Bytes) : Bytes :=
  zeroPad 16 aad ++ zeroPad 16 ciphertext ++
    (leOctets 8 (aad.length % 2 ^ 64) ++ leOctets 8 (ciphertext.length % 2 ^ 64))

theorem updatePoly1305Padded_streams {key : FixedBytes 32} {message : Bytes}
    {mac : Poly1305} (h : mac.Streams key message) (data : Bytes) :
    ∃ mac', updatePoly1305Padded mac data = some mac' ∧
      mac'.Streams key (message ++ zeroPad 16 data) := by
  obtain ⟨mac', hupdate, hstreams⟩ := Poly1305.update_streams h data
  rw [updatePoly1305Padded, hupdate]
  simp only [Option.bind_eq_bind, Option.bind_some]
  by_cases hrem : data.length % 16 = 0
  · refine ⟨mac', by rw [if_neg (by simpa using hrem)], ?_⟩
    rwa [zeroPad, padLength, hrem, Nat.sub_zero, Nat.mod_self, List.replicate_zero,
      List.append_nil]
  · rw [if_pos hrem]
    obtain ⟨mac'', hpad, hstreams'⟩ := Poly1305.update_streams hstreams
      (List.replicate (16 - data.length % 16) 0)
    refine ⟨mac'', hpad, ?_⟩
    rwa [List.append_assoc, show 16 - data.length % 16 = padLength 16 data.length by
      rw [padLength]; omega] at hstreams'

theorem poly1305Tag_eq (otk : FixedBytes 32) (aad ciphertext : Bytes) :
    poly1305Tag otk aad ciphertext = some (rfcTag otk (poly1305Input aad ciphertext)) := by
  obtain ⟨m1, h1, hs1⟩ := updatePoly1305Padded_streams (Poly1305.new_streams otk) aad
  obtain ⟨m2, h2, hs2⟩ := updatePoly1305Padded_streams hs1 ciphertext
  obtain ⟨m3, h3, hs3⟩ := Poly1305.update_streams hs2 (leOctets 8 (aad.length % 2 ^ 64))
  obtain ⟨m4, h4, hs4⟩ := Poly1305.update_streams hs3 (leOctets 8 (ciphertext.length % 2 ^ 64))
  have hmessage : [] ++ zeroPad 16 aad ++ zeroPad 16 ciphertext ++
      leOctets 8 (aad.length % 2 ^ 64) ++ leOctets 8 (ciphertext.length % 2 ^ 64) =
        poly1305Input aad ciphertext := by
    rw [poly1305Input, List.nil_append, List.append_assoc]
  rw [poly1305Tag, h1]
  simp only [Option.bind_eq_bind, Option.bind_some, h2, h3, h4]
  rw [Poly1305.finalize_streams hs4, hmessage]

theorem poly1305Input_injective {aad ciphertext aad' ciphertext' : Bytes}
    (hlength : ciphertext.length ≤ CHACHA20_IETF_MAX_LEN)
    (hlength' : ciphertext'.length ≤ CHACHA20_IETF_MAX_LEN)
    (h : poly1305Input aad ciphertext = poly1305Input aad' ciphertext') :
    aad = aad' ∧ ciphertext = ciphertext' := by
  simp only [CHACHA20_IETF_MAX_LEN, BLOCK_SIZE, U32_MAX] at hlength hlength'
  obtain ⟨hpadded, hlengths⟩ := List.append_inj' h (by simp)
  obtain ⟨haad, hciphertext⟩ := List.append_inj hlengths (by simp)
  have hword : ∀ n : Nat, n % 2 ^ 64 < 256 ^ 8 := fun n => Nat.mod_lt n (by decide)
  have haad := leOctets_inj (hword _) (hword _) haad
  have hciphertext := leOctets_inj (hword _) (hword _) hciphertext
  refine @zeroPad_pair_inj 16 (2 ^ 64) (by decide) _ _ _ _ haad ?_ hpadded
  rwa [Nat.mod_eq_of_lt (by omega), Nat.mod_eq_of_lt (by omega)] at hciphertext

theorem rfcTag_length (key : FixedBytes 32) (message : Bytes) :
    (rfcTag key message).length = 16 := by
  rw [rfcTag, leOctets_length]

def chaCha20Poly1305 (key : FixedBytes 32) : Aead where
  nonceSize := 12
  maxLen := CHACHA20_IETF_MAX_LEN
  macInput := poly1305Input
  encryptInPlace := (ChaCha20Poly1305.mk key).encryptInPlace
  decryptInPlace := (ChaCha20Poly1305.mk key).decryptInPlace

def xChaCha20Poly1305 (key : FixedBytes 32) : Aead where
  nonceSize := 24
  maxLen := CHACHA20_IETF_MAX_LEN
  macInput := poly1305Input
  encryptInPlace := (XChaCha20Poly1305.mk key).encryptInPlace
  decryptInPlace := (XChaCha20Poly1305.mk key).decryptInPlace

theorem chaCha20Poly1305_keyed (key : FixedBytes 32) {nonce : Bytes}
    (hnonce : nonce.length = 12) :
    ∃ stream mac, (chaCha20Poly1305 key).Keyed id nonce stream mac := by
  obtain ⟨otk, cipher, hkey, hat⟩ := oneTimeKey_spec
    (@ChaCha.setCounter_new_at 20 true key ⟨nonce, hnonce⟩ 0#32)
  have hgen : (ChaCha20Poly1305.mk key).polyKeyGen ⟨nonce, hnonce⟩ = some (otk, cipher) := hkey
  refine ⟨fun _ => keystream 20 true (initialState true key ⟨nonce, hnonce⟩) 1, rfcTag otk,
    rfcTag_length otk, fun inOut aad hlength => ?_, fun inOut aad tag hlength htag => ?_⟩
  · have hfits : inOut.length ≤ CHACHA20_IETF_MAX_LEN := hlength
    obtain ⟨cipher', hxor⟩ := xorKeystream_message (hat.setCounter 1#32) hfits
    change ChaCha20Poly1305.encryptInPlace _ _ _ _ = _
    rw [ChaCha20Poly1305.encryptInPlace, if_pos hfits, dif_pos hnonce, hgen]
    simp only [Option.bind_eq_bind, Option.bind_some, hxor, poly1305Tag_eq]
    rfl
  · have hfits : inOut.length ≤ CHACHA20_IETF_MAX_LEN := hlength
    obtain ⟨cipher', hxor⟩ := xorKeystream_message (hat.setCounter 1#32) hfits
    change ChaCha20Poly1305.decryptInPlace _ _ _ _ _ = _
    rw [ChaCha20Poly1305.decryptInPlace, if_neg (Nat.not_lt.mpr hfits),
      if_neg (by simpa using htag), dif_pos hnonce, hgen]
    simp only [Option.bind_eq_bind, Option.bind_some, hxor, poly1305Tag_eq, ne_eq, ite_not]
    rfl

theorem encrypt_refused {α : Type} {max size : Nat} {inOut nonce : Bytes}
    {run : nonce.length = size → Option α} (hbad : ¬ (inOut.length ≤ max ∧ nonce.length = size)) :
    (if inOut.length ≤ max then if hnonce : nonce.length = size then run hnonce else none
      else none) = none := by
  split
  · next hlength => exact dif_neg fun hnonce => hbad ⟨hlength, hnonce⟩
  · rfl

theorem decrypt_refused {max size : Nat} {inOut nonce tag : Bytes}
    {run : nonce.length = size → Option (Except AeadError Unit × Bytes)}
    (hbad : max < inOut.length ∨ tag.length ≠ 16 ∨ nonce.length ≠ size) :
    ∃ error, (if inOut.length > max then some (.error .invalidCiphertext, inOut)
      else if tag.length ≠ 16 then some (.error .invalidCiphertext, inOut)
      else if hnonce : nonce.length = size then run hnonce
      else some (.error .invalidNonce, inOut)) = some (.error error, inOut) := by
  split
  · exact ⟨_, rfl⟩
  · next hlength =>
    split
    · exact ⟨_, rfl⟩
    · next htag => exact ⟨_, dif_neg ((hbad.resolve_left hlength).resolve_left htag)⟩

theorem chaCha20Poly1305_contract (key : FixedBytes 32) :
    (chaCha20Poly1305 key).Contract id :=
  .of_keyed (fun _ => chaCha20Poly1305_keyed key) (fun _ _ _ => encrypt_refused)
    (fun _ _ _ _ => decrypt_refused) fun _ _ _ _ => poly1305Input_injective

def cleared (buffer : Bytes) : Bytes := List.replicate buffer.length 0

theorem xChaCha20Poly1305_keyed (key : FixedBytes 32) {nonce : Bytes}
    (hnonce : nonce.length = 24) :
    ∃ stream mac, (xChaCha20Poly1305 key).Keyed cleared nonce stream mac := by
  obtain ⟨subkey, ietfNonce, hderive⟩ : ∃ subkey ietfNonce,
      (XChaCha20Poly1305.mk key).deriveSubkey ⟨nonce, hnonce⟩ = (subkey, ietfNonce) :=
    ⟨_, _, rfl⟩
  obtain ⟨otk, after, hkey, _⟩ := oneTimeKey_spec
    (@ChaCha.setCounter_new_at 20 true subkey ietfNonce 0#32)
  have hat := @ChaCha.setCounter_new_at 20 true subkey ietfNonce 1#32
  refine ⟨fun _ => keystream 20 true (initialState true subkey ietfNonce) 1, rfcTag otk,
    rfcTag_length otk, fun inOut aad hlength => ?_, fun inOut aad tag hlength htag => ?_⟩
  · have hfits : inOut.length ≤ CHACHA20_IETF_MAX_LEN := hlength
    obtain ⟨cipher', hxor⟩ := xorKeystream_message hat hfits
    change XChaCha20Poly1305.encryptInPlace _ _ _ _ = _
    rw [XChaCha20Poly1305.encryptInPlace, if_pos hfits, dif_pos hnonce]
    simp only [hderive, Option.bind_eq_bind]
    rw [hkey]
    simp only [Option.bind_some]
    rw [hxor]
    simp only [Option.bind_some, poly1305Tag_eq]
    rfl
  · have hfits : inOut.length ≤ CHACHA20_IETF_MAX_LEN := hlength
    obtain ⟨cipher', hxor⟩ := xorKeystream_message hat hfits
    change XChaCha20Poly1305.decryptInPlace _ _ _ _ _ = _
    rw [XChaCha20Poly1305.decryptInPlace, if_neg (Nat.not_lt.mpr hfits),
      if_neg (by simpa using htag), dif_pos hnonce]
    simp only [hderive, Option.bind_eq_bind]
    rw [hkey]
    simp only [Option.bind_some, poly1305Tag_eq, ne_eq, ite_not]
    rw [hxor]
    rfl

theorem xChaCha20Poly1305_contract (key : FixedBytes 32) :
    (xChaCha20Poly1305 key).Contract cleared :=
  .of_keyed (fun _ => xChaCha20Poly1305_keyed key) (fun _ _ _ => encrypt_refused)
    (fun _ _ _ _ => decrypt_refused) fun _ _ _ _ => poly1305Input_injective

/-! ## AES-GCM -/

open Aes Gcm

theorem xorPairs_spec (sched : CtSchedule) (count : Nat) (counter : FixedBytes 16) :
    ∃ counter' key, key.length = 32 * count ∧ ∀ data : Bytes, 32 * count ≤ data.length →
      xorPairs sched count counter data =
        (counter', List.zipWith (· ^^^ ·) (data.take (32 * count)) key) := by
  induction count generalizing counter with
  | zero => exact ⟨counter, [], rfl, fun data _ => by simp [xorPairs]⟩
  | succ count ih =>
    obtain ⟨a, b, hpair⟩ : ∃ a b, encryptPair sched counter (incrementBlock counter) =
      (a, b) := ⟨_, _, rfl⟩
    obtain ⟨counter', key, hlength, hrest⟩ := ih (incrementBlock (incrementBlock counter))
    have hblock : (a.octets ++ b.octets).length = 32 := by
      rw [List.length_append, a.length_eq, b.length_eq]
    refine ⟨counter', a.octets ++ b.octets ++ key, by
      rw [List.length_append, hblock, hlength]; omega, fun data hdata => ?_⟩
    rw [xorPairs, hpair, hrest _ (by rw [List.length_drop]; omega)]
    simp only
    rw [← List.zipWith_append (by rw [List.length_take, hblock]; omega), ← List.take_add,
      Nat.mul_succ, Nat.add_comm 32]

theorem xorSingles_spec (sched : CtSchedule) (count : Nat) (counter : FixedBytes 16) :
    ∃ counter' key, key.length = 16 * count ∧ ∀ data : Bytes, 16 * count ≤ data.length →
      xorSingles sched count counter data =
        (counter', List.zipWith (· ^^^ ·) (data.take (16 * count)) key) := by
  induction count generalizing counter with
  | zero => exact ⟨counter, [], rfl, fun data _ => by simp [xorSingles]⟩
  | succ count ih =>
    obtain ⟨a, ha⟩ : ∃ a, (encryptPair sched counter (.zeroed 16)).1 = a := ⟨_, rfl⟩
    obtain ⟨counter', key, hlength, hrest⟩ := ih (incrementBlock counter)
    refine ⟨counter', a.octets ++ key, by
      rw [List.length_append, a.length_eq, hlength]; omega, fun data hdata => ?_⟩
    rw [xorSingles, ha, hrest _ (by rw [List.length_drop]; omega)]
    simp only
    rw [← List.zipWith_append (by rw [List.length_take, a.length_eq]; omega),
      ← List.take_add, Nat.mul_succ, Nat.add_comm 16]

theorem xorKeystreamSoft_spec (N : Nat) (roundKeys : Array KeyWord) (counter : FixedBytes 16)
    (n : Nat) : ∃ stream : Nat → UInt8, ∀ data : Bytes, data.length = n →
      (xorKeystreamSoft N roundKeys counter data).2 = xorFrom stream 0 data := by
  obtain ⟨c1, k1, hk1, hpairs⟩ := xorPairs_spec (keysched N roundKeys) (n / 32) counter
  obtain ⟨c2, k2, hk2, hsingles⟩ := xorSingles_spec (keysched N roundKeys) (n % 32 / 16) c1
  obtain ⟨a, ha⟩ : ∃ a, (encryptPair (keysched N roundKeys) c2 (.zeroed 16)).1 = a := ⟨_, rfl⟩
  refine ⟨fun i => (k1 ++ k2 ++ a.octets).getD i 0, fun data hdata => ?_⟩
  subst hdata
  have hfront := hpairs data (by omega)
  have hmiddle := hsingles (data.drop (data.length / 32 * 32)) (by
    rw [List.length_drop]; omega)
  rw [xorKeystreamSoft, hfront]
  simp only
  rw [hmiddle]
  simp only
  have hlength : data.length ≤ (k1 ++ k2 ++ a.octets).length := by
    simp only [List.length_append, hk1, hk2, a.length_eq]
    omega
  rw [ha, ← zipWith_eq_xorFrom hlength fun i _ => by rw [Nat.zero_add],
    ← List.zipWith_append (by simp [hk1]; omega),
    ← List.zipWith_append (by simp [hk1, hk2]; omega)]
  congr 1
  rw [Nat.mul_comm 16, Nat.mul_comm 32, List.append_assoc, List.take_append_drop,
    List.take_append_drop]

theorem chunkBlock_append {front : Bytes} (hlength : 16 ≤ front.length) (back : Bytes) :
    chunkBlock (front ++ back) = chunkBlock front := by
  refine FixedBytes.ext ?_
  simp only [chunkBlock, List.length_append]
  rw [List.take_append_of_le_length hlength, Nat.sub_eq_zero_of_le (by omega),
    Nat.sub_eq_zero_of_le hlength]

theorem chunkBlock_octets (block : FixedBytes 16) : chunkBlock block.octets = block := by
  refine FixedBytes.ext ?_
  simp only [chunkBlock, block.length_eq, Nat.sub_self, List.replicate_zero, List.append_nil]
  exact List.take_of_length_le block.length_eq.le

theorem ghashBlocks_append (h : FixedBytes 16) {m n : Nat} {state : FixedBytes 16}
    {front : Bytes} (hlength : front.length = 16 * m) (back : Bytes) :
    ghashBlocks h (m + n) state (front ++ back) =
      ghashBlocks h n (ghashBlocks h m state front) back := by
  induction m generalizing state front with
  | zero =>
    have hnil := List.eq_nil_of_length_eq_zero hlength
    subst hnil
    rw [Nat.zero_add, List.nil_append, ghashBlocks]
  | succ m ih =>
    rw [Nat.add_right_comm, ghashBlocks, ghashBlocks, chunkBlock_append (by omega),
      List.drop_append_of_le_length (by omega), ih (by rw [List.length_drop]; omega)]

theorem ghashUpdate_eq (state h : FixedBytes 16) (data : Bytes) :
    ghashUpdate state h data =
      ghashBlocks h ((zeroPad 16 data).length / 16) state (zeroPad 16 data) := by
  obtain ⟨front, rem, hdata, hfront, hrem⟩ : ∃ front rem, data = front ++ rem ∧
      front.length = 16 * (data.length / 16) ∧ rem = data.drop (16 * (data.length / 16)) :=
    ⟨data.take (16 * (data.length / 16)), _, (List.take_append_drop _ _).symm, by simp; omega,
      rfl⟩
  have hwhole : ghashBlocks h (data.length / 16) state data =
      ghashBlocks h (data.length / 16) state front := by
    have happend := @ghashBlocks_append h _ 0 state front hfront rem
    rwa [← hdata] at happend
  have hlength : rem.length = data.length % 16 := by
    rw [hrem, List.length_drop]
    omega
  rw [ghashUpdate]
  simp only [← hrem]
  rw [hwhole]
  have hpadded : zeroPad 16 data =
      front ++ (rem ++ List.replicate (padLength 16 data.length) 0) := by
    rw [zeroPad, ← List.append_assoc, ← hdata]
  have hcount : (zeroPad 16 data).length / 16 =
      data.length / 16 + if rem = [] then 0 else 1 := by
    rw [zeroPad, List.length_append, List.length_replicate, padLength]
    split
    · next hnil => rw [hnil, List.length_nil] at hlength; omega
    · next hnil => have := List.length_pos_iff.mpr hnil; omega
  rw [hcount, hpadded, ghashBlocks_append h hfront]
  split
  · next hnil => rw [ghashBlocks]
  · next hnil =>
    have hpos := List.length_pos_iff.mpr hnil
    rw [ghashBlocks, ghashBlocks]
    congr 1
    refine FixedBytes.ext ?_
    simp only [chunkBlock, padLength]
    rw [List.take_of_length_le (by omega), List.take_of_length_le (by simp; omega),
      List.append_assoc, ← List.replicate_add, List.length_append, List.length_replicate]
    congr 2
    omega

def gcmInput (aad ciphertext : Bytes) : Bytes :=
  zeroPad 16 aad ++ zeroPad 16 ciphertext ++ (lenBlock aad ciphertext).octets

def gcmMac (h ej0 : FixedBytes 16) (message : Bytes) : Bytes :=
  (xorBlock (ghashBlocks h (message.length / 16) (.zeroed 16) message) ej0).octets

theorem zeroPad_length_mod (data : Bytes) : (zeroPad 16 data).length % 16 = 0 := by
  rw [zeroPad, List.length_append, List.length_replicate, padLength]
  omega

theorem computeTag_eq (h ej0 : FixedBytes 16) (aad ciphertext : Bytes) :
    (computeTag h aad ciphertext ej0).octets = gcmMac h ej0 (gcmInput aad ciphertext) := by
  have haad := zeroPad_length_mod aad
  have hciphertext := zeroPad_length_mod ciphertext
  have hlen := (lenBlock aad ciphertext).length_eq
  have hcount : (gcmInput aad ciphertext).length / 16 =
      (zeroPad 16 aad).length / 16 + ((zeroPad 16 ciphertext).length / 16 + 1) := by
    rw [gcmInput, List.length_append, List.length_append, hlen]
    omega
  rw [computeTag, gcmMac, hcount, gcmInput, List.append_assoc,
    ghashBlocks_append h (by omega), ghashBlocks_append h (by omega), ← ghashUpdate_eq,
    ← ghashUpdate_eq, ghashBlocks, ghashBlocks, chunkBlock_octets]

theorem gcmInput_injective {aad ciphertext aad' ciphertext' : Bytes}
    (hlength : ciphertext.length ≤ GCM_MAX_LEN) (hlength' : ciphertext'.length ≤ GCM_MAX_LEN)
    (h : gcmInput aad ciphertext = gcmInput aad' ciphertext') :
    aad = aad' ∧ ciphertext = ciphertext' := by
  simp only [GCM_MAX_LEN, U32_MAX] at hlength hlength'
  obtain ⟨hpadded, hlengths⟩ := List.append_inj' h (by simp [FixedBytes.length_eq])
  obtain ⟨haad, hciphertext⟩ := List.append_inj hlengths (by simp)
  have hvalue : ∀ {m n : Nat}, fixedOctets 8 (m * 8 % 2 ^ 64) = fixedOctets 8 (n * 8 % 2 ^ 64) →
      m % 2 ^ 61 = n % 2 ^ 61 := by
    intro m n heq
    have hlt : ∀ k : Nat, k % 2 ^ 64 < 256 ^ 8 := fun k => Nat.mod_lt k (by decide)
    have hword := congrArg beValue heq
    rw [beValue_fixedOctets, beValue_fixedOctets, Nat.mod_eq_of_lt (hlt _),
      Nat.mod_eq_of_lt (hlt _)] at hword
    omega
  refine @zeroPad_pair_inj 16 (2 ^ 61) (by decide) _ _ _ _ (hvalue haad) ?_ hpadded
  have := hvalue hciphertext
  rwa [Nat.mod_eq_of_lt (by omega), Nat.mod_eq_of_lt (by omega)] at this

def aesGcm (N : Nat) (key : FixedBytes (keySize N)) : Aead where
  nonceSize := 12
  maxLen := GCM_MAX_LEN
  macInput := gcmInput
  encryptInPlace := (AesGcm.new key : AesGcm N).encryptInPlace
  decryptInPlace := fun inOut nonce aad tag =>
    some ((AesGcm.new key : AesGcm N).decryptInPlace inOut nonce aad tag)

theorem aesGcm_keyed (N : Nat) (key : FixedBytes (keySize N)) {nonce : Bytes}
    (hnonce : nonce.length = 12) :
    ∃ stream mac, (aesGcm N key).Keyed id nonce stream mac := by
  obtain ⟨gcm, hgcm⟩ : ∃ gcm : AesGcm N, AesGcm.new key = gcm := ⟨_, rfl⟩
  obtain ⟨stream, hstream⟩ := Classical.axiomOfChoice
    (xorKeystreamSoft_spec N gcm.roundKeys (AesGcm.counterBlock ⟨nonce, hnonce⟩ 2))
  obtain ⟨ej0, hej0⟩ : ∃ ej0, encryptBlock N gcm.roundKeys
    (AesGcm.counterBlock ⟨nonce, hnonce⟩ 1) = ej0 := ⟨_, rfl⟩
  refine ⟨stream, gcmMac gcm.h ej0, fun message => FixedBytes.length_eq _,
    fun inOut aad hlength => ?_, fun inOut aad tag hlength htag => ?_⟩
  · have hfits : inOut.length ≤ GCM_MAX_LEN := hlength
    change (AesGcm.new key : AesGcm N).encryptInPlace _ _ _ = _
    rw [hgcm, AesGcm.encryptInPlace, dif_pos hnonce, if_pos hfits, AesGcm.encryptInPlaceSoft,
      hej0]
    simp only [hstream _ inOut rfl, computeTag_eq]
    rfl
  · have hfits : inOut.length ≤ GCM_MAX_LEN := hlength
    change some ((AesGcm.new key : AesGcm N).decryptInPlace _ _ _ _) = _
    rw [hgcm, AesGcm.decryptInPlace, dif_pos hnonce, dif_pos htag,
      if_neg (Nat.not_lt.mpr hfits), AesGcm.decryptInPlaceSoft, hej0]
    simp only [hstream _ inOut rfl, computeTag_eq, ne_eq, ite_not]
    rw [apply_ite some, eq_comm]
    simp only [eq_comm]
    rfl

theorem aesGcm_contract (N : Nat) (key : FixedBytes (keySize N)) :
    (aesGcm N key).Contract id := by
  refine .of_keyed (fun nonce => aesGcm_keyed N key) ?_ ?_ fun _ _ _ _ => gcmInput_injective
  · intro inOut nonce aad hbad
    change (AesGcm.new key : AesGcm N).encryptInPlace _ _ _ = _
    rw [AesGcm.encryptInPlace]
    split
    · next hnonce => exact if_neg fun hlength => hbad ⟨hlength, hnonce⟩
    · rfl
  · intro inOut nonce aad tag hbad
    change ∃ error, some ((AesGcm.new key : AesGcm N).decryptInPlace _ _ _ _) = _
    rw [AesGcm.decryptInPlace]
    split
    · next hnonce =>
      split
      · next htag =>
        rw [if_pos (by
          rcases hbad with hlong | hshort | hother
          · exact hlong
          · exact absurd htag hshort
          · exact absurd hnonce hother)]
        exact ⟨_, rfl⟩
      · exact ⟨_, rfl⟩
    · exact ⟨_, rfl⟩

/-! ## Together -/

/--
All three ciphers restore what they encrypt, return on every input to decryption, and
authenticate a string that determines the associated data and the ciphertext.  A failed
decryption leaves the buffer, except that a tag that does not match makes
`XChaCha20Poly1305` clear it.
-/
theorem aead_contracts :
    (∀ key, (chaCha20Poly1305 key).Contract id) ∧
      (∀ key, (xChaCha20Poly1305 key).Contract cleared) ∧
      (∀ key, (aesGcm 11 key).Contract id) ∧ (∀ key, (aesGcm 15 key).Contract id) :=
  ⟨chaCha20Poly1305_contract, xChaCha20Poly1305_contract, aesGcm_contract 11,
    aesGcm_contract 15⟩

/-- Of two tags one does not match, and then the octet 1 has become 0. -/
theorem xChaCha20Poly1305_clears_buffer :
    ¬ ∀ key inOut nonce aad tag buffer,
      (xChaCha20Poly1305 key).decryptInPlace inOut nonce aad tag =
        some (.error .invalidCiphertext, buffer) → buffer = inOut := by
  intro hleaves
  obtain ⟨stream, mac, h⟩ := xChaCha20Poly1305_keyed (.zeroed 32)
    (show (List.replicate 24 (0 : UInt8)).length = 24 by simp)
  have hmismatch : ∀ tag : Bytes, tag.length = 16 →
      mac ((xChaCha20Poly1305 (.zeroed 32)).macInput [] [1]) = tag := by
    intro tag htag
    by_contra hne
    have hdecrypt := h.decrypt_eq [1] [] tag (by decide) htag
    rw [if_neg hne] at hdecrypt
    exact absurd (hleaves _ _ _ _ _ _ hdecrypt) (by decide)
  have hzero := hmismatch (List.replicate 16 0) (by simp)
  rw [hmismatch (List.replicate 16 1) (by simp)] at hzero
  exact absurd hzero (by decide)

end Stdx.Cipher
