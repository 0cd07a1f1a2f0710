import Mathlib
import Mathlib.Data.List.TakeWhile
import Stdx.Rsa.Key

/-!
# PKCS#1 v1.5 verification

The encoded message is found in the power of the signature and compared without a
branch on its octets.  The check admits one encoding only: the separator is the
first octet after the `0xff` padding, and what follows it has to be as long as the
prefix and the digest together.
-/

namespace Stdx.Rsa

open Stdx.Foundation Stdx.BigNumber

def DIGEST_INFO_SHA256_PREFIX : Bytes :=
  [0x30, 0x31, 0x30, 0x0d, 0x06, 0x09, 0x60, 0x86, 0x48, 0x01, 0x65, 0x03, 0x04, 0x02, 0x01,
    0x05, 0x00, 0x04, 0x20]

def DIGEST_INFO_SHA384_PREFIX : Bytes :=
  [0x30, 0x41, 0x30, 0x0d, 0x06, 0x09, 0x60, 0x86, 0x48, 0x01, 0x65, 0x03, 0x04, 0x02, 0x02,
    0x05, 0x00, 0x04, 0x30]

def DIGEST_INFO_SHA512_PREFIX : Bytes :=
  [0x30, 0x51, 0x30, 0x0d, 0x06, 0x09, 0x60, 0x86, 0x48, 0x01, 0x65, 0x03, 0x04, 0x02, 0x03,
    0x05, 0x00, 0x04, 0x40]

/-- The digest of a whole message is all that verification asks of a hash. -/
structure Hasher where
  OUTPUT_SIZE : Nat
  output_size_pos : 0 < OUTPUT_SIZE
  hash : Bytes → FixedBytes OUTPUT_SIZE

/-! ## The code -/

/-- `ok |= em[start + i] ^ expected[i]` for `i` in `0..count`. -/
def differences (em : Bytes) (start : Nat) (expected : Bytes) (count : Nat) (ok : UInt8) :
    Outcome RsaError UInt8 :=
  (List.range count).foldlM
    (fun ok i => do
      let a ← getByte em (start + i)
      let b ← getByte expected i
      .ok (ok ||| (a ^^^ b)))
    ok

def separatorIndex (em : Bytes) : Nat := 2 + ((em.drop 2).takeWhile (· == 0xff)).length

def pkcs1V15EmMatches (em digestInfoPrefix messageDigest : Bytes) : Outcome RsaError Bool :=
  let modBytes := em.length
  if modBytes < 2 ∨ em[0]? ≠ some 0x00 ∨ em[1]? ≠ some 0x01 then .ok false
  else
    let sep := separatorIndex em
    if sep ≥ modBytes ∨ em[sep]? ≠ some 0x00 ∨ sep < 10 then .ok false
    else
      let diStart := sep + 1
      let expectedLen := digestInfoPrefix.length + messageDigest.length
      if modBytes - diStart ≠ expectedLen then .ok false
      else do
        let ok ← differences em diStart digestInfoPrefix digestInfoPrefix.length 0
        let ok ← differences em (diStart + digestInfoPrefix.length) messageDigest
          messageDigest.length ok
        .ok (ok == 0)

def PublicKey.verifyPkcs1V15 (debug : Bool) (key : PublicKey)
    (signature messageDigest digestInfoPrefix : Bytes) : Outcome RsaError Unit :=
  if signature.length ≠ key.nLen then .err .Unspecified
  else do
    let s ← uintFromVariableBe signature
    if s.ctGe key.n then .err .Unspecified
    else do
      let m ← key.modpowPublic debug s
      let modBytes := key.nLen
      let mBytes ← writeUintBe m (List.replicate RSA_MAX_BYTES 0) modBytes
      let em ← getSlice mBytes 0 modBytes
      let matched ← pkcs1V15EmMatches em digestInfoPrefix messageDigest
      if !matched then .err .Unspecified else .ok ()

def PublicKey.verifyPkcs1Sha256 (debug : Bool) (Sha256 : Hasher) (key : PublicKey)
    (signature message : Bytes) : Outcome RsaError Unit :=
  key.verifyPkcs1V15 debug signature (Sha256.hash message).octets DIGEST_INFO_SHA256_PREFIX

def PublicKey.verifyPkcs1Sha384 (debug : Bool) (Sha384 : Hasher) (key : PublicKey)
    (signature message : Bytes) : Outcome RsaError Unit :=
  key.verifyPkcs1V15 debug signature (Sha384.hash message).octets DIGEST_INFO_SHA384_PREFIX

def PublicKey.verifyPkcs1Sha512 (debug : Bool) (Sha512 : Hasher) (key : PublicKey)
    (signature message : Bytes) : Outcome RsaError Unit :=
  key.verifyPkcs1V15 debug signature (Sha512.hash message).octets DIGEST_INFO_SHA512_PREFIX

/-! ## The encoding -/

/-- `I2OSP(x, len)` -/
def i2osp (x len : Nat) : Option Bytes :=
  if x < 256 ^ len then some (fixedOctets len x) else none

/-- `EM = 00 || 01 || PS || 00 || T` with at least eight octets `ff` in `PS`. -/
def Pkcs1Encodes (T em : Bytes) : Prop :=
  ∃ p, 8 ≤ p ∧ em = [0x00, 0x01] ++ List.replicate p 0xff ++ [0x00] ++ T

/-- RFC 8017, with the digest of the message in place of the hash identifier's octets. -/
def Pkcs1Accepts (n e : Nat) (H : Hasher) (digestInfoPrefix signature message : Bytes) : Prop :=
  let k := (beOctets n).length
  signature.length = k ∧ beValue signature < n ∧
    ∃ em, i2osp (beValue signature ^ e % n) k = some em ∧
      Pkcs1Encodes (digestInfoPrefix ++ (H.hash message).octets) em

theorem i2osp_eq_some {x len : Nat} {octets : Bytes} :
    i2osp x len = some octets ↔ x < 256 ^ len ∧ fixedOctets len x = octets := by
  unfold i2osp
  split <;> simp_all

/-! ## Comparing without branches -/

theorem or_xor_eq_zero (ok a b : UInt8) : ok ||| (a ^^^ b) = 0 ↔ ok = 0 ∧ a = b := by
  simp only [← UInt8.toBitVec_inj, UInt8.toBitVec_or, UInt8.toBitVec_xor]
  exact BitVec.or_eq_zero_iff.trans (and_congr_right' BitVec.xor_eq_zero_iff)

theorem getByte_of_lt {data : Bytes} {index : Nat} (h : index < data.length) :
    getByte data index = .ok data[index] := by
  rw [getByte, List.getElem?_eq_getElem h]

theorem differences_spec {em expected : Bytes} {start count : Nat}
    (hem : start + count ≤ em.length) (hexpected : count ≤ expected.length) (ok : UInt8) :
    ∃ ok', differences em start expected count ok = .ok ok' ∧
      (ok' = 0 ↔ ok = 0 ∧ slice em start (start + count) = expected.take count) := by
  induction count with
  | zero => exact ⟨ok, rfl, by simp⟩
  | succ count ih =>
    obtain ⟨ok', hrun, hzero⟩ := ih (by omega) (by omega)
    have ha : start + count < em.length := by omega
    have hb : count < expected.length := by omega
    have hslice : slice em start (start + (count + 1)) =
        slice em start (start + count) ++ [em[start + count]] := by
      rw [slice, slice, Nat.add_sub_cancel_left, Nat.add_sub_cancel_left,
        List.take_succ_eq_append_getElem (by rw [List.length_drop]; omega),
        List.getElem_drop]
    refine ⟨ok' ||| (em[start + count] ^^^ expected[count]), ?_, ?_⟩
    · unfold differences at hrun ⊢
      rw [List.range_succ, List.foldlM_append, hrun, Outcome.ok_bind]
      simp only [List.foldlM_cons, List.foldlM_nil, getByte_of_lt ha, getByte_of_lt hb,
        Outcome.ok_bind, Outcome.pure_eq]
    · rw [or_xor_eq_zero, hzero, hslice, List.take_succ_eq_append_getElem hb,
        List.append_singleton_inj, and_assoc]

/-! ## The encoded message -/

theorem separatorIndex_encoding (p : Nat) (T : Bytes) :
    separatorIndex ([0x00, 0x01] ++ List.replicate p 0xff ++ [0x00] ++ T) = 2 + p := by
  have hpadding : ∀ octet ∈ List.replicate p (0xff : UInt8), (octet == 0xff) = true := by
    intro octet hmem
    simp [List.eq_of_mem_replicate hmem]
  simp only [separatorIndex, List.append_assoc, List.cons_append, List.nil_append,
    List.drop_succ_cons, List.drop_zero, List.takeWhile_append_of_pos hpadding]
  simp

theorem separator_encoding (p : Nat) (T : Bytes) :
    ([0x00, 0x01] ++ List.replicate p 0xff ++ [0x00] ++ T)[2 + p]? = some (0x00 : UInt8) ∧
      ([0x00, 0x01] ++ List.replicate p 0xff ++ [0x00] ++ T).drop (2 + p + 1) = T := by
  have hfront : ([0x00, 0x01] ++ List.replicate p (0xff : UInt8)).length = 2 + p := by
    simp
    omega
  constructor
  · rw [List.append_assoc, List.getElem?_append_right (by rw [hfront]), hfront]
    simp
  · rw [List.drop_append_of_le_length (by simp; omega),
      List.drop_of_length_le (by simp; omega), List.nil_append]

theorem eq_of_separator {em : Bytes} (h0 : em[0]? = some 0x00) (h1 : em[1]? = some 0x01)
    (hsep : em[separatorIndex em]? = some 0x00) :
    em = [0x00, 0x01] ++ List.replicate (separatorIndex em - 2) 0xff ++ [0x00] ++
      em.drop (separatorIndex em + 1) := by
  obtain ⟨rest, rfl⟩ : ∃ rest, em = 0x00 :: 0x01 :: rest := by
    match em, h0, h1 with
    | a :: b :: rest, h0, h1 => exact ⟨rest, by simp_all⟩
  have hindex : separatorIndex (0x00 :: 0x01 :: rest) =
      (rest.takeWhile (· == 0xff)).length + 2 := Nat.add_comm _ _
  rw [hindex] at hsep ⊢
  have hpadding : ∀ octet ∈ rest.takeWhile (· == 0xff), octet = 0xff := fun octet hmem => by
    simpa using List.mem_takeWhile_imp hmem
  have hsplit := List.takeWhile_append_dropWhile (p := (· == 0xff)) (l := rest)
  generalize rest.takeWhile (· == 0xff) = padding at hsep hpadding hsplit ⊢
  generalize rest.dropWhile (· == 0xff) = tail at hsplit
  subst hsplit
  have hreplicate := List.eq_replicate_of_mem hpadding
  cases tail with
  | nil => simp at hsep
  | cons octet tail =>
    obtain rfl : octet = 0x00 := by simpa using hsep
    nth_rewrite 1 [hreplicate]
    simp

theorem pkcs1V15EmMatches_spec (em digestInfoPrefix messageDigest : Bytes) :
    ∃ matched, pkcs1V15EmMatches em digestInfoPrefix messageDigest = .ok matched ∧
      (matched = true ↔ Pkcs1Encodes (digestInfoPrefix ++ messageDigest) em) := by
  by_cases hhead : em.length < 2 ∨ em[0]? ≠ some 0x00 ∨ em[1]? ≠ some 0x01
  · refine ⟨false, by simp only [pkcs1V15EmMatches, if_pos hhead], by simp, ?_⟩
    rintro ⟨p, -, rfl⟩
    simp at hhead
  by_cases hsep : separatorIndex em ≥ em.length ∨ em[separatorIndex em]? ≠ some 0x00 ∨
      separatorIndex em < 10
  · refine ⟨false, by simp only [pkcs1V15EmMatches, if_neg hhead, if_pos hsep], by simp, ?_⟩
    rintro ⟨p, hp, rfl⟩
    rw [separatorIndex_encoding, (separator_encoding p _).1] at hsep
    simp at hsep
    omega
  obtain ⟨-, h0, h1⟩ := not_or.mp hhead |>.imp_right not_or.mp
  obtain ⟨hlt, hzero, hten⟩ := not_or.mp hsep |>.imp_right not_or.mp
  have heq := eq_of_separator (not_not.mp h0) (not_not.mp h1) (not_not.mp hzero)
  -- the padding is read off `em`, so `T` is what stands behind the separator
  have hencodes : Pkcs1Encodes (digestInfoPrefix ++ messageDigest) em ↔
      em.drop (separatorIndex em + 1) = digestInfoPrefix ++ messageDigest := by
    constructor
    · rintro ⟨p, -, rfl⟩
      rw [separatorIndex_encoding]
      exact (separator_encoding p _).2
    · intro htail
      exact ⟨separatorIndex em - 2, by omega, htail ▸ heq⟩
  rw [hencodes]
  by_cases hlength : em.length - (separatorIndex em + 1) ≠
      digestInfoPrefix.length + messageDigest.length
  · refine ⟨false, by simp only [pkcs1V15EmMatches, if_neg hhead, if_neg hsep, if_pos hlength],
      by simp, fun htail => ?_⟩
    have := congrArg List.length htail
    rw [List.length_drop, List.length_append] at this
    exact absurd this hlength
  have hroom := not_not.mp hlength
  obtain ⟨ok, hfirst, hprefix⟩ := differences_spec
    (by omega : separatorIndex em + 1 + digestInfoPrefix.length ≤ em.length) le_rfl 0
  obtain ⟨ok', hsecond, hdigest⟩ := differences_spec
    (by omega : separatorIndex em + 1 + digestInfoPrefix.length + messageDigest.length ≤
      em.length) le_rfl ok
  refine ⟨ok' == 0, ?_, ?_⟩
  · simp only [pkcs1V15EmMatches, if_neg hhead, if_neg hsep, if_neg hlength, hfirst, hsecond,
      Outcome.ok_bind]
  · have hrest : slice em (separatorIndex em + 1 + digestInfoPrefix.length)
        (separatorIndex em + 1 + digestInfoPrefix.length + messageDigest.length) =
          (em.drop (separatorIndex em + 1)).drop digestInfoPrefix.length := by
      rw [slice, List.drop_drop, List.take_of_length_le]
      rw [List.length_drop]
      omega
    rw [beq_iff_eq, hdigest, hprefix, List.take_length, List.take_length, hrest,
      slice, Nat.add_sub_cancel_left, and_iff_right rfl]
    constructor
    · rintro ⟨htake, hdrop⟩
      rw [← List.take_append_drop digestInfoPrefix.length (em.drop _), htake, hdrop]
    · intro htail
      rw [htail]
      exact ⟨List.take_left, List.drop_left⟩

/-! ## Verification -/

namespace PublicKey.Accepted

variable {key : PublicKey} {nBytes eBytes signature : Bytes}

theorem signature_power (h : key.Accepted nBytes eBytes) (debug : Bool)
    (hlength : signature.length = key.nLen) :
    ∃ s, uintFromVariableBe signature = .ok s ∧
      s.ctGe key.n = decide (key.n.value ≤ beValue signature) ∧
      (beValue signature < key.n.value → ∃ m, key.modpowPublic debug s = .ok m ∧
        m.value = beValue signature ^ key.e.value % key.n.value) := by
  obtain ⟨s, hs, hvalue⟩ := uintFromVariableBe_ok (hlength.trans_le h.nLen_le)
  refine ⟨s, hs, by rw [Uint.ctGe_eq, hvalue], fun hlt => ?_⟩
  rw [← hvalue] at hlt ⊢
  exact h.modpowPublic_value debug hlt

theorem verifyPkcs1V15_ok (h : key.Accepted nBytes eBytes) (debug : Bool)
    (digestInfoPrefix messageDigest : Bytes) (hlength : signature.length = key.nLen)
    (hlt : beValue signature < key.n.value) :
    ∃ matched, key.verifyPkcs1V15 debug signature messageDigest digestInfoPrefix =
        (if matched then .ok () else .err .Unspecified) ∧
      (matched = true ↔ Pkcs1Encodes (digestInfoPrefix ++ messageDigest)
        (fixedOctets key.nLen (beValue signature ^ key.e.value % key.n.value))) := by
  obtain ⟨s, hs, hge, hpower⟩ := h.signature_power debug hlength
  obtain ⟨m, hm, hvalue⟩ := hpower hlt
  obtain ⟨matched, hmatches, hiff⟩ := pkcs1V15EmMatches_spec
    (fixedOctets key.nLen (beValue signature ^ key.e.value % key.n.value))
    digestInfoPrefix messageDigest
  refine ⟨matched, ?_, hiff⟩
  have hslice : getSlice (fixedOctets key.nLen m.value ++
      List.replicate (RSA_MAX_BYTES - key.nLen) 0) 0 key.nLen =
        .ok (fixedOctets key.nLen m.value) := by
    rw [getSlice, if_pos (by simp), slice, List.drop_zero, Nat.sub_zero,
      List.take_left' (fixedOctets_length _ _)]
  simp only [PublicKey.verifyPkcs1V15, hlength, ne_eq, not_true_eq_false, if_false, hs,
    Outcome.ok_bind, hge, decide_eq_true_eq, Nat.not_le.mpr hlt, hm, writeUintBe_ok h.nLen_le,
    hslice]
  rw [hvalue, hmatches, Outcome.ok_bind]
  cases matched <;> rfl

end PublicKey.Accepted

theorem verifyPkcs1V15_spec {nBytes eBytes : Bytes} {key : PublicKey}
    (h : fromNE nBytes eBytes = .ok key) (debug : Bool)
    (signature messageDigest digestInfoPrefix : Bytes) :
    let n := beValue nBytes
    let k := (beOctets n).length
    let run := key.verifyPkcs1V15 debug signature messageDigest digestInfoPrefix
    (run = .ok () ∨ run = .err .Unspecified) ∧
      (run = .ok () ↔ signature.length = k ∧ beValue signature < n ∧
        ∃ em, i2osp (beValue signature ^ beValue eBytes % n) k = some em ∧
          Pkcs1Encodes (digestInfoPrefix ++ messageDigest) em) := by
  have h := fromNE_accepted h
  simp only [← h.n_eq, ← h.e_eq, ← h.nLen_eq_length, i2osp_eq_some]
  by_cases hlength : signature.length = key.nLen
  · by_cases hlt : beValue signature < key.n.value
    · obtain ⟨matched, hrun, hiff⟩ := h.verifyPkcs1V15_ok debug digestInfoPrefix messageDigest
        hlength hlt
      have hfits : beValue signature ^ key.e.value % key.n.value < 256 ^ key.nLen :=
        (Nat.mod_lt _ h.n_pos).trans h.nLen_bounds.2
      rw [hrun]
      cases matched <;> simp_all
    · obtain ⟨s, hs, hge, -⟩ := h.signature_power debug hlength
      have hrun : key.verifyPkcs1V15 debug signature messageDigest digestInfoPrefix =
          .err .Unspecified := by
        rw [PublicKey.verifyPkcs1V15, if_neg (not_not.mpr hlength), hs, Outcome.ok_bind, hge,
          decide_eq_true (Nat.not_lt.mp hlt)]
        rfl
      simp [hrun, hlt]
  · have hrun : key.verifyPkcs1V15 debug signature messageDigest digestInfoPrefix =
        .err .Unspecified := if_pos hlength
    simp [hrun, hlength]

theorem verifyPkcs1_exact {nBytes eBytes : Bytes} {key : PublicKey}
    (h : fromNE nBytes eBytes = .ok key) (debug : Bool) (H : Hasher)
    (signature message : Bytes) :
    let Accepts := fun digestInfoPrefix =>
      Pkcs1Accepts (beValue nBytes) (beValue eBytes) H digestInfoPrefix signature message
    (∀ digestInfoPrefix,
      key.verifyPkcs1V15 debug signature (H.hash message).octets digestInfoPrefix = .ok () ↔
        Accepts digestInfoPrefix) ∧
      (key.verifyPkcs1Sha256 debug H signature message = .ok () ↔
        Accepts DIGEST_INFO_SHA256_PREFIX) ∧
      (key.verifyPkcs1Sha384 debug H signature message = .ok () ↔
        Accepts DIGEST_INFO_SHA384_PREFIX) ∧
      (key.verifyPkcs1Sha512 debug H signature message = .ok () ↔
        Accepts DIGEST_INFO_SHA512_PREFIX) := by
  have hspec := fun digestInfoPrefix =>
    (verifyPkcs1V15_spec h debug signature (H.hash message).octets digestInfoPrefix).2
  exact ⟨hspec, hspec _, hspec _, hspec _⟩

/-! ## A forged key

The modulus `s ^ 3 - EM` makes `s` the signature of `EM` for the exponent 3. -/

def forgedModulus (s : Nat) (em : Bytes) : Nat := s ^ 3 - beValue em

structure Forges (s : Nat) (em : Bytes) : Prop where
  em_lt : beValue em < forgedModulus s em
  bits : 2 ^ (RSA_MIN_BITS - 1) ≤ forgedModulus s em
  low : 256 ^ 255 ≤ forgedModulus s em
  high : forgedModulus s em < 256 ^ 256
  odd : forgedModulus s em % 2 = 1
  three_lt : 3 < forgedModulus s em
  s_lt : s < forgedModulus s em

theorem Forges.power {s : Nat} {em : Bytes} (h : Forges s em) :
    s ^ 3 % forgedModulus s em = beValue em := by
  have hle : beValue em ≤ s ^ 3 := by
    by_contra hlt
    have hthree := h.three_lt
    rw [forgedModulus, Nat.sub_eq_zero_of_le (Nat.le_of_not_le hlt)] at hthree
    omega
  have hsum : s ^ 3 = forgedModulus s em + beValue em := (Nat.sub_add_cancel hle).symm
  rw [hsum, Nat.add_mod_left, Nat.mod_eq_of_lt h.em_lt]

theorem Forges.accepts {s : Nat} {em : Bytes} (h : Forges s em) :
    ∃ key, fromNE (fixedOctets 256 (forgedModulus s em)) [3] = .ok key := by
  have hn : beValue (fixedOctets 256 (forgedModulus s em)) = forgedModulus s em := by
    rw [beValue_fixedOctets, Nat.mod_eq_of_lt h.high]
  apply fromNE_accepts
  · rw [fixedOctets_length]
    decide
  · decide
  · rw [hn]
    exact h.odd
  · rw [hn]
    exact h.bits
  · decide
  · decide
  · decide
  · rw [hn]
    exact h.three_lt

theorem Forges.values {s : Nat} {em : Bytes} (h : Forges s em) (hem : em.length = 256) :
    beValue (fixedOctets 256 (forgedModulus s em)) = forgedModulus s em ∧
      beValue (fixedOctets 256 s) = s ∧ (beOctets (forgedModulus s em)).length = 256 ∧
      i2osp (beValue em) 256 = some em := by
  refine ⟨?_, ?_, beOctets_length_eq h.low h.high, ?_⟩
  · rw [beValue_fixedOctets, Nat.mod_eq_of_lt h.high]
  · rw [beValue_fixedOctets, Nat.mod_eq_of_lt (h.s_lt.trans h.high)]
  · have hlt := h.em_lt.trans h.high
    refine i2osp_eq_some.mpr ⟨hlt, beValue_inj ?_ ?_⟩
    · rw [fixedOctets_length, hem]
    · rw [beValue_fixedOctets, Nat.mod_eq_of_lt hlt]

def emptyDigest : Hasher where
  OUTPUT_SIZE := 32
  output_size_pos := Nat.two_pow_pos 5
  hash _ := ⟨fixedOctets 32
    0xe3b0c44298fc1c149afbf4c8996fb92427ae41e4649b934ca495991b7852b855, fixedOctets_length _ _⟩

def emptyEncoding : Bytes :=
  [0x00, 0x01] ++ List.replicate 202 0xff ++ [0x00] ++
    (DIGEST_INFO_SHA256_PREFIX ++ (emptyDigest.hash []).octets)

theorem emptyEncoding_forges : Forges (3 * 2 ^ 681) emptyEncoding := by
  constructor <;> decide +kernel

theorem verifyPkcs1_exact_empty : ∃ key,
    fromNE (fixedOctets 256 (forgedModulus (3 * 2 ^ 681) emptyEncoding)) [3] = .ok key ∧
      key.verifyPkcs1Sha256 true emptyDigest (fixedOctets 256 (3 * 2 ^ 681)) [] = .ok () := by
  have h := emptyEncoding_forges
  generalize 3 * 2 ^ 681 = s at h
  obtain ⟨key, hkey⟩ := h.accepts
  obtain ⟨hn, hs, hk, hem⟩ := h.values (by decide +kernel)
  have he : beValue [3] = 3 := rfl
  refine ⟨key, hkey, (verifyPkcs1_exact hkey true emptyDigest _ []).2.1.mpr ?_⟩
  simp only [Pkcs1Accepts, hn, he, hk, hs, h.power]
  exact ⟨fixedOctets_length _ _, h.s_lt, emptyEncoding, hem, 202, by decide, rfl⟩

end Stdx.Rsa
