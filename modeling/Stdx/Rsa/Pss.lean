import Mathlib.Data.Nat.Size
import Stdx.Rsa.Pkcs1

/-!
# RSA-PSS verification

`verify_pss` recovers the masked block and the salt from the power of the signature
and hashes again.  A signature passes exactly when some salt encodes to that power.
-/

namespace Stdx.Rsa

open Stdx.Foundation Stdx.BigNumber

/-- `a - b` on `usize` -/
def subUsize (a b : Nat) : Outcome RsaError Nat :=
  if b ≤ a then .ok (a - b) else .panic

/-! ## The code -/

def mgf1Loop (H : Hasher) (seed : Bytes) (outLen : Nat) (written : Bytes) (counter : Nat) :
    Outcome RsaError Bytes :=
  if written.length < outLen then
    if seed.length + 4 ≤ RSA_MAX_BYTES + 4 ∧ counter + 1 < 2 ^ 32 then
      let hash := H.hash (seed ++ fixedOctets 4 counter)
      let take := min (outLen - written.length) H.OUTPUT_SIZE
      mgf1Loop H seed outLen (written ++ hash.octets.take take) (counter + 1)
    else .panic
  else .ok written
termination_by outLen - written.length
decreasing_by
  have hpos := H.output_size_pos
  have hhash := (H.hash (seed ++ fixedOctets 4 counter)).length_eq
  simp only [List.length_append, List.length_take, hhash]
  omega

def mgf1 (H : Hasher) (seed : Bytes) (outLen : Nat) : Outcome RsaError Bytes :=
  if seed.length ≤ RSA_MAX_BYTES + 4 then mgf1Loop H seed outLen [] 0 else .panic

/-- `a ^ b` for each pair -/
def xorBytes (a b : Bytes) : Bytes := List.zipWith (· ^^^ ·) a b

/-- `octets[0] &= 0xff >> bits` -/
def clearTop (bits : Nat) : Bytes → Bytes
  | [] => []
  | first :: rest => (first &&& (0xff >>> UInt8.ofNat bits)) :: rest

/-- `em[0] >> (8 - leftmost_bits)`, where there are such bits. -/
def topBits (em : Bytes) (leftmostBits : Nat) : Outcome RsaError UInt8 :=
  if 0 < leftmostBits ∧ leftmostBits < 8 then do
    let first ← getByte em 0
    .ok (first >>> UInt8.ofNat (8 - leftmostBits))
  else .ok 0

def emsaPssVerify (T : Target) (H : Hasher) (em : Bytes) (emBits : Nat) (message : Bytes)
    (saltLen : Nat) : Outcome RsaError Unit := do
  let hashLen := H.OUTPUT_SIZE
  let emLen := (emBits + 7) / 8
  let leftmostBits ← subUsize (8 * emLen) emBits
  let excess ← topBits em leftmostBits
  if excess ≠ 0 then .err .Unspecified
  else do
    let needed ← addUsize T hashLen saltLen
    let needed ← addUsize T needed 2
    if emLen < needed then .err .Unspecified
    else do
      let last ← subUsize emLen 1
      let trailer ← getByte em last
      if trailer ≠ 0xbc then .err .Unspecified
      else do
        let maskedDbLen ← subUsize emLen hashLen
        let maskedDbLen ← subUsize maskedDbLen 1
        let maskedDb ← getSlice em 0 maskedDbLen
        let h ← getSlice em maskedDbLen (maskedDbLen + hashLen)
        let dbMask ← mgf1 H h maskedDbLen
        let db := xorBytes maskedDb dbMask ++
          List.replicate (RSA_MAX_BYTES - maskedDbLen) 0
        let db := if 0 < leftmostBits ∧ leftmostBits < 8 then clearTop leftmostBits db else db
        let psLen ← subUsize emLen hashLen
        let psLen ← subUsize psLen saltLen
        let psLen ← subUsize psLen 2
        let padding ← getSlice db 0 psLen
        if padding.any (· != 0x00) then .err .Unspecified
        else do
          let separator ← getByte db psLen
          if separator ≠ 0x01 then .err .Unspecified
          else do
            let salt ← getSlice db (psLen + 1) (psLen + 1 + saltLen)
            let mHash := H.hash message
            let mpLen := 8 + hashLen + saltLen
            if mpLen > 8 + 64 + RSA_MAX_BYTES then .panic
            else do
              let hp := H.hash (List.replicate 8 0 ++ mHash.octets ++ salt)
              let ok ← differences h 0 hp.octets hashLen 0
              if ok ≠ 0 then .err .Unspecified else .ok ()

def PublicKey.verifyPss (T : Target) (debug : Bool) (H : Hasher) (key : PublicKey)
    (signature message : Bytes) (saltLen : Nat) : Outcome RsaError Unit :=
  if signature.length ≠ key.nLen then .err .Unspecified
  else do
    let s ← uintFromVariableBe signature
    if s.ctGe key.n then .err .Unspecified
    else do
      let m ← key.modpowPublic debug s
      let emBits ← subUsize key.n.bitLen 1
      let emLen := (emBits + 7) / 8
      if m.bitLen > 8 * emLen then .err .Unspecified
      else do
        let em ← writeUintBe m (List.replicate RSA_MAX_BYTES 0) emLen
        emsaPssVerify T H em emBits message saltLen

/-! ## The encoding -/

def maskBlocks (H : Hasher) (seed : Bytes) (blocks : Nat) : Bytes :=
  (List.range blocks).flatMap fun counter => (H.hash (seed ++ fixedOctets 4 counter)).octets

/-- `MGF1(seed, maskLen)` -/
def mgf1Mask (H : Hasher) (seed : Bytes) (maskLen : Nat) : Bytes :=
  (maskBlocks H seed ((maskLen + H.OUTPUT_SIZE - 1) / H.OUTPUT_SIZE)).take maskLen

/-- `EMSA-PSS-ENCODE(message, emBits)` with a given salt. -/
def emsaPssEncode (H : Hasher) (message salt : Bytes) (emBits : Nat) : Option Bytes :=
  let emLen := (emBits + 7) / 8
  let mHash := (H.hash message).octets
  if emLen < H.OUTPUT_SIZE + salt.length + 2 then none
  else
    let h := (H.hash (List.replicate 8 0 ++ mHash ++ salt)).octets
    let db := List.replicate (emLen - salt.length - H.OUTPUT_SIZE - 2) 0 ++ [0x01] ++ salt
    let dbMask := mgf1Mask H h (emLen - H.OUTPUT_SIZE - 1)
    let maskedDb := clearTop (8 * emLen - emBits) (xorBytes db dbMask)
    some (maskedDb ++ h ++ [0xbc])

/-! ## The mask -/

variable {H : Hasher} {seed : Bytes}

@[simp] theorem maskBlocks_zero : maskBlocks H seed 0 = [] := rfl

theorem maskBlocks_succ (blocks : Nat) :
    maskBlocks H seed (blocks + 1) =
      maskBlocks H seed blocks ++ (H.hash (seed ++ fixedOctets 4 blocks)).octets := by
  simp [maskBlocks, List.range_succ]

theorem maskBlocks_length (blocks : Nat) :
    (maskBlocks H seed blocks).length = blocks * H.OUTPUT_SIZE := by
  induction blocks with
  | zero => simp
  | succ blocks ih =>
    rw [maskBlocks_succ, List.length_append, ih, FixedBytes.length_eq, Nat.succ_mul]

theorem maskBlocks_take {blocks len : Nat} (h : len ≤ blocks * H.OUTPUT_SIZE) :
    (maskBlocks H seed blocks).take len = mgf1Mask H seed len := by
  have hpos := H.output_size_pos
  have hmore : ∀ few more, len ≤ few * H.OUTPUT_SIZE →
      (maskBlocks H seed (few + more)).take len = (maskBlocks H seed few).take len := by
    intro few more hfew
    induction more with
    | zero => rfl
    | succ more ih =>
      rw [← Nat.add_assoc, maskBlocks_succ, List.take_append_of_le_length, ih]
      rw [maskBlocks_length, Nat.add_mul]
      omega
  have hceil : len ≤ (len + H.OUTPUT_SIZE - 1) / H.OUTPUT_SIZE * H.OUTPUT_SIZE := by
    have := Nat.div_add_mod (len + H.OUTPUT_SIZE - 1) H.OUTPUT_SIZE
    have := Nat.mod_lt (len + H.OUTPUT_SIZE - 1) hpos
    rw [Nat.mul_comm]
    omega
  have hleast : (len + H.OUTPUT_SIZE - 1) / H.OUTPUT_SIZE ≤ blocks := by
    rw [← Nat.lt_succ_iff, Nat.div_lt_iff_lt_mul hpos, Nat.succ_mul]
    omega
  obtain ⟨more, rfl⟩ := Nat.exists_eq_add_of_le hleast
  exact hmore _ more hceil

theorem mgf1Mask_length (len : Nat) : (mgf1Mask H seed len).length = len := by
  have hle : len ≤ len * H.OUTPUT_SIZE := Nat.le_mul_of_pos_right _ H.output_size_pos
  rw [← maskBlocks_take hle, List.length_take, maskBlocks_length, Nat.min_eq_left hle]

theorem mgf1Loop_eq {outLen : Nat} (hseed : seed.length ≤ RSA_MAX_BYTES)
    (hout : outLen ≤ RSA_MAX_BYTES) (written : Bytes) (counter : Nat)
    (h : written = (maskBlocks H seed counter).take outLen) :
    mgf1Loop H seed outLen written counter = .ok (mgf1Mask H seed outLen) := by
  have hpos := H.output_size_pos
  have hlength : written.length = min outLen (counter * H.OUTPUT_SIZE) := by
    rw [h, List.length_take, maskBlocks_length]
  fun_induction mgf1Loop H seed outLen written counter with
  | case1 written counter hmore hchecks hash take ih =>
    have hlt : counter * H.OUTPUT_SIZE < outLen := by omega
    have hstep : written ++ hash.octets.take take =
        (maskBlocks H seed (counter + 1)).take outLen := by
      have hwhole : written = maskBlocks H seed counter := by
        rw [h, List.take_of_length_le (by rw [maskBlocks_length]; exact hlt.le)]
      have htake : hash.octets.take take =
          hash.octets.take (outLen - (maskBlocks H seed counter).length) := by
        rw [← hwhole, ← List.take_take, List.take_of_length_le hash.length_eq.le]
      rw [htake, maskBlocks_succ, List.take_append, ← hwhole,
        List.take_of_length_le hmore.le]
    exact ih hstep (by rw [hstep, List.length_take, maskBlocks_length])
  | case2 written counter hmore hchecks =>
    have hle : counter ≤ counter * H.OUTPUT_SIZE := Nat.le_mul_of_pos_right _ hpos
    unfold RSA_MAX_BYTES at *
    omega
  | case3 written counter hdone =>
    rw [h, maskBlocks_take (by omega)]

theorem mgf1_eq {outLen : Nat} (hseed : seed.length ≤ RSA_MAX_BYTES)
    (hout : outLen ≤ RSA_MAX_BYTES) : mgf1 H seed outLen = .ok (mgf1Mask H seed outLen) := by
  rw [mgf1, if_pos (by omega), mgf1Loop_eq hseed hout _ _ (by simp)]

/-! ## Octet strings -/

theorem xorBytes_length {a b : Bytes} (h : a.length = b.length) :
    (xorBytes a b).length = a.length := by
  simp [xorBytes, h]

theorem xorBytes_cancel {a b : Bytes} (h : a.length = b.length) :
    xorBytes (xorBytes a b) b = a := by
  apply List.ext_getElem
  · simp [xorBytes, h]
  · intro i hi _
    simp [xorBytes, UInt8.xor_assoc]

@[simp] theorem clearTop_length (bits : Nat) (octets : Bytes) :
    (clearTop bits octets).length = octets.length := by
  cases octets <;> simp [clearTop]

theorem clearTop_xorBytes (bits : Nat) (a b : Bytes) :
    clearTop bits (xorBytes a b) = xorBytes (clearTop bits a) (clearTop bits b) := by
  cases a with
  | nil => rfl
  | cons x a =>
    cases b with
    | nil => rfl
    | cons y b =>
      simp only [xorBytes, clearTop, List.zipWith_cons_cons]
      congr 1
      apply octet_ext
      simp [Bool.and_xor_distrib_right]

theorem clearTop_idem (bits : Nat) (octets : Bytes) :
    clearTop bits (clearTop bits octets) = clearTop bits octets := by
  cases octets with
  | nil => rfl
  | cons first rest => simp [clearTop, UInt8.and_assoc]

theorem clearTop_append {front : Bytes} (h : front ≠ []) (bits : Nat) (back : Bytes) :
    clearTop bits (front ++ back) = clearTop bits front ++ back := by
  cases front with
  | nil => exact absurd rfl h
  | cons first rest => rfl

@[simp] theorem clearTop_zero (octets : Bytes) : clearTop 0 octets = octets := by
  cases octets with
  | nil => rfl
  | cons first rest =>
    have hfirst : first &&& (0xff >>> UInt8.ofNat 0) = first := by
      rw [← UInt8.toNat_inj, UInt8.toNat_and]
      exact (Nat.and_two_pow_sub_one_eq_mod _ 8).trans (Nat.mod_eq_of_lt first.toNat_lt)
    rw [clearTop, hfirst]

theorem shift_eq_zero_iff {bits : Nat} (hpos : 0 < bits) (hlt : bits < 8) (octet : UInt8) :
    octet >>> UInt8.ofNat (8 - bits) = 0 ↔ octet &&& (0xff >>> UInt8.ofNat bits) = octet := by
  have hshift : (octet >>> UInt8.ofNat (8 - bits)).toNat = octet.toNat / 2 ^ (8 - bits) := by
    rw [UInt8.toNat_shiftRight, UInt8.toNat_ofNat', Nat.shiftRight_eq_div_pow]
    congr 2
    omega
  have hmask : (octet &&& (0xff >>> UInt8.ofNat bits)).toNat = octet.toNat % 2 ^ (8 - bits) := by
    have hones : ((0xff : UInt8) >>> UInt8.ofNat bits).toNat = 2 ^ (8 - bits) - 1 := by
      interval_cases bits <;> rfl
    rw [UInt8.toNat_and, hones, Nat.and_two_pow_sub_one_eq_mod]
  rw [← UInt8.toNat_inj, ← UInt8.toNat_inj, hshift, hmask, UInt8.toNat_zero,
    Nat.div_eq_zero_iff_lt (Nat.two_pow_pos _), Nat.mod_eq_iff_lt (Nat.two_pow_pos _).ne']

/-! ## Decoding -/

def hashedAgain (H : Hasher) (message salt : Bytes) : Bytes :=
  (H.hash (List.replicate 8 0 ++ (H.hash message).octets ++ salt)).octets

variable {message : Bytes} {emBits saltLen : Nat}

theorem clearTop_padding {bits : Nat} (hbits : bits < 8) (psLen : Nat) (salt : Bytes) :
    clearTop bits (List.replicate psLen 0 ++ [0x01] ++ salt) =
      List.replicate psLen 0 ++ [0x01] ++ salt := by
  cases psLen with
  | zero =>
    have hone : (0x01 : UInt8) &&& (0xff >>> UInt8.ofNat bits) = 0x01 := by
      interval_cases bits <;> decide
    simp [clearTop, hone]
  | succ psLen => simp [clearTop, List.replicate_succ]

theorem emsaPssEncode_iff {maskedDb h : Bytes} {trailer : UInt8}
    (hroom : H.OUTPUT_SIZE + saltLen + 2 ≤ (emBits + 7) / 8)
    (hdb : maskedDb.length = (emBits + 7) / 8 - H.OUTPUT_SIZE - 1)
    (hh : h.length = H.OUTPUT_SIZE) :
    let bits := 8 * ((emBits + 7) / 8) - emBits
    let psLen := (emBits + 7) / 8 - H.OUTPUT_SIZE - saltLen - 2
    (∃ salt, salt.length = saltLen ∧
        emsaPssEncode H message salt emBits = some (maskedDb ++ h ++ [trailer])) ↔
      clearTop bits maskedDb = maskedDb ∧ trailer = 0xbc ∧ ∃ salt, salt.length = saltLen ∧
        clearTop bits (xorBytes maskedDb (mgf1Mask H h maskedDb.length)) =
          List.replicate psLen 0 ++ [0x01] ++ salt ∧
        hashedAgain H message salt = h := by
  intro bits psLen
  have hbits : bits < 8 := by omega
  -- unmasking what was masked gives the block back
  have hunmask : ∀ a : Bytes, a.length = maskedDb.length → clearTop bits
      (xorBytes (clearTop bits (xorBytes a (mgf1Mask H h maskedDb.length)))
        (mgf1Mask H h maskedDb.length)) = clearTop bits a := by
    intro a ha
    have hmask : (clearTop bits a).length =
        (clearTop bits (mgf1Mask H h maskedDb.length)).length := by
      rw [clearTop_length, clearTop_length, mgf1Mask_length, ha]
    rw [clearTop_xorBytes, clearTop_idem, clearTop_xorBytes, xorBytes_cancel hmask]
  have hencode : ∀ salt, salt.length = saltLen →
      emsaPssEncode H message salt emBits =
        some (clearTop bits (xorBytes (List.replicate psLen 0 ++ [0x01] ++ salt)
          (mgf1Mask H (hashedAgain H message salt) maskedDb.length)) ++
            hashedAgain H message salt ++ [0xbc]) := by
    intro salt hsalt
    have hps : (emBits + 7) / 8 - salt.length - H.OUTPUT_SIZE - 2 = psLen := by omega
    simp only [emsaPssEncode]
    rw [if_neg (by omega), hps, ← hdb]
    rfl
  have hblock : ∀ salt : Bytes, salt.length = saltLen →
      (List.replicate psLen 0 ++ [0x01] ++ salt).length = maskedDb.length := by
    intro salt hsalt
    simp only [List.length_append, List.length_replicate, List.length_singleton]
    omega
  constructor
  · rintro ⟨salt, hsalt, henc⟩
    rw [hencode salt hsalt, Option.some.injEq] at henc
    obtain ⟨hfront, htrailer⟩ := List.append_inj' henc rfl
    obtain ⟨hmasked, rfl⟩ := List.append_inj' hfront (by
      rw [hh]
      exact FixedBytes.length_eq _)
    refine ⟨by rw [← hmasked, clearTop_idem], (List.singleton_inj.mp htrailer).symm, salt,
      hsalt, ?_, rfl⟩
    nth_rewrite 1 [← hmasked]
    rw [hunmask _ (hblock salt hsalt), clearTop_padding hbits]
  · rintro ⟨hclear, rfl, salt, hsalt, hdb', rfl⟩
    refine ⟨salt, hsalt, ?_⟩
    rw [hencode salt hsalt, ← hdb', hunmask maskedDb rfl, hclear]

theorem topBits_eq {bits : Nat} (hbits : bits < 8) (first : UInt8) (rest : Bytes) :
    ∃ excess, topBits (first :: rest) bits = .ok excess ∧
      (excess = 0 ↔ clearTop bits (first :: rest) = first :: rest) := by
  by_cases hpos : 0 < bits
  · refine ⟨first >>> UInt8.ofNat (8 - bits), by rw [topBits, if_pos ⟨hpos, hbits⟩]; rfl, ?_⟩
    rw [shift_eq_zero_iff hpos hbits, clearTop, List.cons.injEq, and_iff_left rfl]
  · obtain rfl : bits = 0 := Nat.eq_zero_of_not_pos hpos
    exact ⟨0, rfl, by simp⟩

theorem any_ne_zero_iff (octets : Bytes) :
    octets.any (· != 0x00) = true ↔ octets ≠ List.replicate octets.length 0 := by
  rw [ne_eq, List.eq_replicate_iff]
  simp

theorem padding_iff {db : Bytes} {psLen : Nat} (h : db.length = psLen + 1 + saltLen) :
    (∃ salt, salt.length = saltLen ∧ db = List.replicate psLen 0 ++ [0x01] ++ salt ∧
        hashedAgain H message salt = seed) ↔
      db.take psLen = List.replicate psLen 0 ∧ db[psLen]? = some 0x01 ∧
        hashedAgain H message (db.drop (psLen + 1)) = seed := by
  constructor
  · rintro ⟨salt, hsalt, rfl, hagain⟩
    have hdrop : (List.replicate psLen 0 ++ [0x01] ++ salt).drop (psLen + 1) = salt :=
      List.drop_left' (by simp)
    exact ⟨by simp, by simp, by rw [hdrop, hagain]⟩
  · rintro ⟨hpadding, hone, hagain⟩
    refine ⟨db.drop (psLen + 1), by rw [List.length_drop]; omega, ?_, hagain⟩
    obtain ⟨hlt, hget⟩ := List.getElem?_eq_some_iff.mp hone
    rw [← hpadding, ← hget, ← List.take_succ_eq_append_getElem hlt, List.take_append_drop]

theorem subUsize_of_le {a b : Nat} (h : b ≤ a) : subUsize a b = .ok (a - b) := if_pos h

theorem addUsize_of_lt {T : Target} {a b : Nat} (h : a + b < 2 ^ T.usizeBits) :
    addUsize T a b = .ok (a + b) := if_pos h

theorem topBits_append {bits : Nat} (hbits : bits < 8) {front : Bytes} (hfront : front ≠ [])
    (back : Bytes) : ∃ excess, topBits (front ++ back) bits = .ok excess ∧
      (excess = 0 ↔ clearTop bits front = front) := by
  cases front with
  | nil => exact absurd rfl hfront
  | cons first rest =>
    obtain ⟨excess, hrun, hiff⟩ := topBits_eq hbits first (rest ++ back)
    refine ⟨excess, hrun, hiff.trans ?_⟩
    rw [← List.cons_append, clearTop_append hfront, List.append_left_inj]

theorem emsaPssVerify_short (T : Target) (message : Bytes) {em : Bytes} (hem : em ≠ [])
    (hshort : (emBits + 7) / 8 < H.OUTPUT_SIZE + saltLen + 2)
    (husize : H.OUTPUT_SIZE + saltLen + 2 < 2 ^ T.usizeBits) :
    emsaPssVerify T H em emBits message saltLen = .err .Unspecified := by
  obtain ⟨excess, hexcess, -⟩ := topBits_append
    (by omega : 8 * ((emBits + 7) / 8) - emBits < 8) hem []
  rw [List.append_nil] at hexcess
  simp only [emsaPssVerify]
  rw [subUsize_of_le (by omega), Outcome.ok_bind, hexcess, Outcome.ok_bind,
    addUsize_of_lt (by omega), Outcome.ok_bind, addUsize_of_lt (by omega), Outcome.ok_bind,
    if_pos hshort, ite_self]

theorem emsaPssVerify_checks (T : Target) (message pad : Bytes) (trailer : UInt8)
    {maskedDb h : Bytes}
    (hroom : H.OUTPUT_SIZE + saltLen + 2 ≤ (emBits + 7) / 8)
    (hdb : maskedDb.length = (emBits + 7) / 8 - H.OUTPUT_SIZE - 1)
    (hh : h.length = H.OUTPUT_SIZE) (hsize : (emBits + 7) / 8 ≤ RSA_MAX_BYTES)
    (husize : H.OUTPUT_SIZE + saltLen + 2 < 2 ^ T.usizeBits) :
    let bits := 8 * ((emBits + 7) / 8) - emBits
    let psLen := (emBits + 7) / 8 - H.OUTPUT_SIZE - saltLen - 2
    let db := clearTop bits (xorBytes maskedDb (mgf1Mask H h maskedDb.length))
    ∃ excess separator ok : UInt8,
      emsaPssVerify T H (maskedDb ++ h ++ [trailer] ++ pad) emBits message saltLen =
        (if excess ≠ 0 then .err .Unspecified
        else if trailer ≠ 0xbc then .err .Unspecified
        else if (db.take psLen).any (· != 0x00) then .err .Unspecified
        else if separator ≠ 0x01 then .err .Unspecified
        else if ok ≠ 0 then .err .Unspecified else .ok ()) ∧
      (excess = 0 ↔ clearTop bits maskedDb = maskedDb) ∧
      db[psLen]? = some separator ∧
      (ok = 0 ↔ hashedAgain H message (db.drop (psLen + 1)) = h) := by
  intro bits psLen db
  have hne : maskedDb ≠ [] := List.ne_nil_of_length_pos (by omega)
  obtain ⟨excess, hexcess, hclear⟩ := topBits_append (by omega : bits < 8) hne
    (h ++ [trailer] ++ pad)
  have hem : maskedDb ++ h ++ [trailer] ++ pad = maskedDb ++ (h ++ [trailer] ++ pad) := by
    simp
  have hdbLen : db.length = maskedDb.length := by
    rw [clearTop_length, xorBytes_length (mgf1Mask_length _).symm]
  have hpsLen : psLen < db.length := by omega
  -- the reads of the encoded message
  have htrailer : getByte (maskedDb ++ h ++ [trailer] ++ pad) ((emBits + 7) / 8 - 1) =
      .ok trailer := by
    have hlast : (emBits + 7) / 8 - 1 = (maskedDb ++ h).length := by
      rw [List.length_append]
      omega
    rw [getByte, List.append_assoc, hlast]
    simp
  have hmasked : getSlice (maskedDb ++ h ++ [trailer] ++ pad) 0 maskedDb.length =
      .ok maskedDb := by
    rw [hem, getSlice, if_pos (by simp), slice, List.drop_zero, Nat.sub_zero, List.take_left]
  have hhash : getSlice (maskedDb ++ h ++ [trailer] ++ pad) maskedDb.length
      (maskedDb.length + H.OUTPUT_SIZE) = .ok h := by
    rw [hem, getSlice, if_pos (by simp; omega), slice, List.drop_left, Nat.add_sub_cancel_left,
      ← hh, List.append_assoc, List.take_left]
  have hmask : mgf1 H h maskedDb.length = .ok (mgf1Mask H h maskedDb.length) :=
    mgf1_eq (by omega) (by omega)
  -- the reads of the block, which zeros follow
  generalize hzeros : List.replicate (RSA_MAX_BYTES - maskedDb.length) (0 : UInt8) = zeros
  have hblock : (if 0 < bits ∧ bits < 8 then
      clearTop bits (xorBytes maskedDb (mgf1Mask H h maskedDb.length) ++ zeros)
      else xorBytes maskedDb (mgf1Mask H h maskedDb.length) ++ zeros) = db ++ zeros := by
    have hxor : xorBytes maskedDb (mgf1Mask H h maskedDb.length) ≠ [] :=
      List.ne_nil_of_length_pos (by
        rw [xorBytes_length (mgf1Mask_length _).symm]
        omega)
    split
    · rw [clearTop_append hxor]
    · next hnone =>
      have hzero : bits = 0 := by omega
      simp only [db, hzero, clearTop_zero]
  have hpadding : getSlice (db ++ zeros) 0 psLen = .ok (db.take psLen) := by
    rw [getSlice, if_pos (by simp; omega), slice, List.drop_zero, Nat.sub_zero,
      List.take_append_of_le_length hpsLen.le]
  have hseparator : getByte (db ++ zeros) psLen = .ok db[psLen] := by
    rw [getByte, List.getElem?_append_left hpsLen, List.getElem?_eq_getElem hpsLen]
  have hsalt : getSlice (db ++ zeros) (psLen + 1) (psLen + 1 + saltLen) =
      .ok (db.drop (psLen + 1)) := by
    rw [getSlice, if_pos (by simp; omega), slice_append (by omega), slice,
      List.take_of_length_le (by rw [List.length_drop]; omega)]
  have hbuffer : ¬8 + H.OUTPUT_SIZE + saltLen > 8 + 64 + RSA_MAX_BYTES := by omega
  obtain ⟨ok, hok, hzero⟩ := differences_spec
    (by omega : 0 + H.OUTPUT_SIZE ≤ h.length)
    (FixedBytes.length_eq (H.hash (List.replicate 8 0 ++ (H.hash message).octets ++
      db.drop (psLen + 1)))).ge 0
  refine ⟨excess, db[psLen], ok, ?_, hclear, List.getElem?_eq_getElem hpsLen, ?_⟩
  · simp only [emsaPssVerify]
    rw [subUsize_of_le (by omega), Outcome.ok_bind, hem, hexcess, ← hem, Outcome.ok_bind,
      addUsize_of_lt (by omega), Outcome.ok_bind, addUsize_of_lt (by omega), Outcome.ok_bind,
      if_neg (Nat.not_lt.mpr hroom), subUsize_of_le (by omega), Outcome.ok_bind, htrailer,
      Outcome.ok_bind, subUsize_of_le (by omega), Outcome.ok_bind, subUsize_of_le (by omega),
      Outcome.ok_bind, ← hdb, hmasked, Outcome.ok_bind, hhash, Outcome.ok_bind, hmask,
      Outcome.ok_bind, Outcome.ok_bind, subUsize_of_le (by omega), Outcome.ok_bind,
      subUsize_of_le (by omega), Outcome.ok_bind, hzeros, hblock, hpadding, Outcome.ok_bind,
      hseparator,
      Outcome.ok_bind, hsalt, Outcome.ok_bind, if_neg hbuffer, hok, Outcome.ok_bind]
  · rw [hzero, and_iff_right rfl, slice, List.drop_zero, Nat.sub_zero, Nat.zero_add,
      List.take_of_length_le hh.le, List.take_of_length_le (FixedBytes.length_eq _).le]
    exact eq_comm

theorem emsaPssVerify_spec (T : Target) {maskedDb h pad : Bytes} {trailer : UInt8}
    (hroom : H.OUTPUT_SIZE + saltLen + 2 ≤ (emBits + 7) / 8)
    (hdb : maskedDb.length = (emBits + 7) / 8 - H.OUTPUT_SIZE - 1)
    (hh : h.length = H.OUTPUT_SIZE) (hsize : (emBits + 7) / 8 ≤ RSA_MAX_BYTES)
    (husize : H.OUTPUT_SIZE + saltLen + 2 < 2 ^ T.usizeBits) :
    let run := emsaPssVerify T H (maskedDb ++ h ++ [trailer] ++ pad) emBits message saltLen
    (run = .ok () ∨ run = .err .Unspecified) ∧
      (run = .ok () ↔ ∃ salt, salt.length = saltLen ∧
        emsaPssEncode H message salt emBits = some (maskedDb ++ h ++ [trailer])) := by
  intro run
  obtain ⟨excess, separator, ok, hrun, hclear, hseparator, hok⟩ :=
    emsaPssVerify_checks T message pad trailer hroom hdb hh hsize husize
  generalize hblock : clearTop _ (xorBytes maskedDb (mgf1Mask H h maskedDb.length)) = db
    at hrun hseparator hok
  have hdbLen : db.length =
      (emBits + 7) / 8 - H.OUTPUT_SIZE - saltLen - 2 + 1 + saltLen := by
    rw [← hblock, clearTop_length, xorBytes_length (mgf1Mask_length _).symm]
    omega
  have hpadding := any_ne_zero_iff
    (db.take ((emBits + 7) / 8 - H.OUTPUT_SIZE - saltLen - 2))
  rw [List.length_take, Nat.min_eq_left (by omega)] at hpadding
  have hdecoded : run = .ok () ↔ excess = 0 ∧ trailer = 0xbc ∧
      db.take ((emBits + 7) / 8 - H.OUTPUT_SIZE - saltLen - 2) =
        List.replicate ((emBits + 7) / 8 - H.OUTPUT_SIZE - saltLen - 2) 0 ∧
      separator = 0x01 ∧ ok = 0 := by
    simp only [run, hrun]
    split_ifs <;> simp_all
  refine ⟨?_, hdecoded.trans (Iff.trans ?_ (emsaPssEncode_iff hroom hdb hh).symm)⟩
  · simp only [run, hrun]
    split_ifs <;> simp
  · simp only [hblock]
    rw [padding_iff hdbLen, hseparator, Option.some.injEq, hclear, hok]

theorem emsaPssVerify_exact (T : Target) (message : Bytes) {em : Bytes} (hpos : 0 < emBits)
    (hem : em.length = (emBits + 7) / 8) (hsize : (emBits + 7) / 8 ≤ RSA_MAX_BYTES)
    (husize : H.OUTPUT_SIZE + saltLen + 2 < 2 ^ T.usizeBits) (pad : Bytes) :
    let run := emsaPssVerify T H (em ++ pad) emBits message saltLen
    (run = .ok () ∨ run = .err .Unspecified) ∧
      (run = .ok () ↔ ∃ salt, salt.length = saltLen ∧
        emsaPssEncode H message salt emBits = some em) := by
  by_cases hroom : H.OUTPUT_SIZE + saltLen + 2 ≤ (emBits + 7) / 8
  · obtain ⟨maskedDb, h, trailer, rfl, hdb, hh⟩ : ∃ maskedDb h trailer,
        em = maskedDb ++ h ++ [trailer] ∧
          maskedDb.length = (emBits + 7) / 8 - H.OUTPUT_SIZE - 1 ∧ h.length = H.OUTPUT_SIZE := by
      obtain ⟨trailer, htrailer⟩ := List.length_eq_one_iff.mp
        (by rw [List.length_drop]; omega : (em.drop ((emBits + 7) / 8 - 1)).length = 1)
      have hlast : (emBits + 7) / 8 - 1 =
          (emBits + 7) / 8 - H.OUTPUT_SIZE - 1 + H.OUTPUT_SIZE := by omega
      refine ⟨em.take ((emBits + 7) / 8 - H.OUTPUT_SIZE - 1),
        (em.drop ((emBits + 7) / 8 - H.OUTPUT_SIZE - 1)).take H.OUTPUT_SIZE, trailer, ?_, ?_, ?_⟩
      · rw [← htrailer, hlast, List.append_assoc, ← List.drop_drop, List.take_append_drop,
          List.take_append_drop]
      · rw [List.length_take]
        omega
      · rw [List.length_take, List.length_drop]
        omega
    exact emsaPssVerify_spec T hroom hdb hh hsize husize
  · have hne : em ++ pad ≠ [] :=
      List.append_ne_nil_of_left_ne_nil (List.ne_nil_of_length_pos (by omega)) _
    have hrun := emsaPssVerify_short T message hne (Nat.lt_of_not_le hroom) husize
    have hnone : ¬∃ salt, salt.length = saltLen ∧
        emsaPssEncode H message salt emBits = some em := by
      rintro ⟨salt, hsalt, henc⟩
      rw [emsaPssEncode, hsalt, if_pos (Nat.lt_of_not_le hroom)] at henc
      cases henc
    intro run
    simp [run, hrun, hnone]

/-- RFC 8017, with the salt of a given length. -/
def PssAccepts (n e : Nat) (H : Hasher) (signature message : Bytes) (saltLen : Nat) : Prop :=
  let emBits := Nat.size n - 1
  signature.length = (beOctets n).length ∧ beValue signature < n ∧
    ∃ salt, salt.length = saltLen ∧ ∃ em, emsaPssEncode H message salt emBits = some em ∧
      i2osp (beValue signature ^ e % n) ((emBits + 7) / 8) = some em

theorem verifyPss_exact {nBytes eBytes : Bytes} {key : PublicKey}
    (h : fromNE nBytes eBytes = .ok key) (T : Target) (debug : Bool) (H : Hasher)
    (signature message : Bytes) (saltLen : Nat)
    (husize : H.OUTPUT_SIZE + saltLen + 2 < 2 ^ T.usizeBits) :
    let run := key.verifyPss T debug H signature message saltLen
    run ≠ .panic ∧
      (run = .ok () ↔
        PssAccepts (beValue nBytes) (beValue eBytes) H signature message saltLen) := by
  have h := fromNE_accepted h
  have hsize : Nat.size key.n.value = key.n.bitLen :=
    eq_of_forall_ge_iff fun bound => by rw [Nat.size_le, Uint.bitLen_le_iff]
  simp only [PssAccepts, ← h.n_eq, ← h.e_eq, ← h.nLen_eq_length, hsize]
  have hmin : 2048 ≤ key.n.bitLen := h.n_bits
  have hmax : key.n.bitLen ≤ 8192 := PublicKey.Accepted.bitLen_le key
  have hfits : (key.n.bitLen - 1 + 7) / 8 ≤ RSA_MAX_BYTES := by
    unfold RSA_MAX_BYTES
    omega
  by_cases hlength : signature.length = key.nLen
  · obtain ⟨s, hs, hge, hpower⟩ := h.signature_power debug hlength
    by_cases hlt : beValue signature < key.n.value
    · obtain ⟨m, hm, hvalue⟩ := hpower hlt
      have hfit : m.bitLen ≤ 8 * ((key.n.bitLen - 1 + 7) / 8) ↔
          m.value < 256 ^ ((key.n.bitLen - 1 + 7) / 8) := by
        have h256 : 256 = 2 ^ 8 := by norm_num
        rw [Uint.bitLen_le_iff, h256, ← pow_mul]
      have hstart : key.verifyPss T debug H signature message saltLen =
          if m.bitLen > 8 * ((key.n.bitLen - 1 + 7) / 8) then .err .Unspecified
          else emsaPssVerify T H (fixedOctets ((key.n.bitLen - 1 + 7) / 8) m.value ++
            List.replicate (RSA_MAX_BYTES - (key.n.bitLen - 1 + 7) / 8) 0)
              (key.n.bitLen - 1) message saltLen := by
        simp only [PublicKey.verifyPss, hlength, ne_eq, not_true_eq_false, if_false, hs,
          Outcome.ok_bind, hge, decide_eq_true_eq, Nat.not_le.mpr hlt, hm,
          subUsize_of_le (by omega : 1 ≤ key.n.bitLen), writeUintBe_ok hfits]
      rw [hstart, ← hvalue]
      by_cases hwide : m.bitLen > 8 * ((key.n.bitLen - 1 + 7) / 8)
      · have hnone : ¬m.value < 256 ^ ((key.n.bitLen - 1 + 7) / 8) :=
          fun hlt => Nat.not_le.mpr hwide (hfit.mpr hlt)
        simp [if_pos hwide, i2osp, hnone]
      · obtain ⟨htotal, hiff⟩ := emsaPssVerify_exact T message
          (by omega : 0 < key.n.bitLen - 1)
          (fixedOctets_length ((key.n.bitLen - 1 + 7) / 8) m.value) hfits husize
          (List.replicate (RSA_MAX_BYTES - (key.n.bitLen - 1 + 7) / 8) 0)
        rw [if_neg hwide]
        refine ⟨?_, hiff.trans ?_⟩
        · rcases htotal with hok | herr
          · simp [hok]
          · simp [herr]
        · simp only [hlength, hlt, true_and, i2osp_eq_some, hfit.mp (Nat.not_lt.mp hwide),
            exists_eq_right']
    · have hrun : key.verifyPss T debug H signature message saltLen = .err .Unspecified := by
        rw [PublicKey.verifyPss, if_neg (not_not.mpr hlength), hs, Outcome.ok_bind, hge,
          decide_eq_true (Nat.not_lt.mp hlt)]
        rfl
      simp [hrun, hlt]
  · have hrun : key.verifyPss T debug H signature message saltLen = .err .Unspecified :=
      if_pos hlength
    simp [hrun, hlength]

def emptyPssEncoding : Bytes :=
  (emsaPssEncode emptyDigest [] (List.replicate 32 0) 2047).getD []

theorem emptyPssEncoding_forges : Forges (7 * 2 ^ 680 + 1) emptyPssEncoding := by
  constructor <;> decide +kernel

theorem size_le_of_lt {n k : Nat} (h : n < 256 ^ k) : Nat.size n ≤ 8 * k := by
  rw [Nat.size_le, pow_mul]
  exact h

theorem Forges.size {s : Nat} {em : Bytes} (h : Forges s em) :
    Nat.size (forgedModulus s em) = 2048 := by
  have hlow : RSA_MIN_BITS - 1 < Nat.size (forgedModulus s em) := Nat.lt_size.mpr h.bits
  exact le_antisymm (size_le_of_lt h.high) hlow

theorem verifyPss_exact_empty : ∃ key,
    fromNE (fixedOctets 256 (forgedModulus (7 * 2 ^ 680 + 1) emptyPssEncoding)) [3] = .ok key ∧
      key.verifyPss ⟨64, by decide⟩ true emptyDigest (fixedOctets 256 (7 * 2 ^ 680 + 1)) [] 32 =
        .ok () := by
  have h := emptyPssEncoding_forges
  generalize 7 * 2 ^ 680 + 1 = s at h
  obtain ⟨key, hkey⟩ := h.accepts
  obtain ⟨hn, hs, hk, hem⟩ := h.values (by decide +kernel)
  have he : beValue [3] = 3 := rfl
  refine ⟨key, hkey, (verifyPss_exact hkey ⟨64, by decide⟩ true emptyDigest _ [] 32
    (by decide)).2.mpr ?_⟩
  simp only [PssAccepts, hn, he, hk, hs, h.power, h.size]
  refine ⟨fixedOctets_length _ _, h.s_lt, List.replicate 32 0, rfl, emptyPssEncoding, ?_, hem⟩
  decide +kernel

end Stdx.Rsa
