import Stdx.BigNumber.Modpow
import Stdx.Foundation.Outcome
import Stdx.Foundation.Octets
import Stdx.Foundation.Slices

/-!
# RSA public keys

The key of `crypto/src/rsa.rs`, its two constructors and the public operation.
An index out of range, an overflowing `usize` addition and a failed assertion
are panics; `debug` says whether `debug_assert!` is compiled in.
-/

namespace Stdx.Rsa

open Stdx.Foundation Stdx.BigNumber

inductive RsaError where
  | InvalidKey
  | InvalidSignature
  | NotSupported
  | Unspecified
  deriving DecidableEq, Repr

def RSA_MIN_BITS : Nat := 2048
def RSA_MAX_BITS : Nat := 8192
def RSA_MAX_PUBEXP_BITS : Nat := 64
def RSA_MAX_LIMBS : Nat := 128
def RSA_MAX_BYTES : Nat := 1024

abbrev RsaUint := Uint RSA_MAX_BITS RSA_MAX_LIMBS

structure PublicKey where
  n : RsaUint
  e : RsaUint
  nLen : Nat
  eLen : Nat
  mu : Limbs
  deriving DecidableEq

/-! ## Slices -/

/-- `&data[start..stop]` -/
def getSlice (data : Bytes) (start stop : Nat) : Outcome RsaError Bytes :=
  if start ≤ stop ∧ stop ≤ data.length then .ok (slice data start stop) else .panic

/-- `data[index]` -/
def getByte (data : Bytes) (index : Nat) : Outcome RsaError UInt8 :=
  match data[index]? with
  | some octet => .ok octet
  | none => .panic

/-- `a + b` on `usize` -/
def addUsize (T : Target) (a b : Nat) : Outcome RsaError Nat :=
  if a + b < 2 ^ T.usizeBits then .ok (a + b) else .panic

def asserted {α : Type} : Option α → Outcome RsaError α
  | some a => .ok a
  | none => .panic

/-! ## Octets of an integer -/

/-- Limb `i` of the octets, the most significant ones padded with zeros. -/
def limbFromBe (bytes : Bytes) (i : Nat) : UInt64 :=
  let limbStart := bytes.length - (i + 1) * 8
  let limbEnd := bytes.length - i * 8
  UInt64.ofNat (beValue (List.replicate (8 - (limbEnd - limbStart)) 0 ++
    slice bytes limbStart limbEnd))

def uintFromVariableBe (bytes : Bytes) : Outcome RsaError RsaUint :=
  if bytes.length > RSA_MAX_BITS / 8 then .err .NotSupported
  else .ok ⟨(List.range RSA_MAX_LIMBS).map (limbFromBe bytes), by simp⟩

def toBeBytesFixed (value : RsaUint) : Bytes :=
  value.limbs.reverse.flatMap fun limb => fixedOctets 8 limb.toNat

def writeUintBe (value : RsaUint) (out : Bytes) (byteLen : Nat) :
    Outcome RsaError Bytes :=
  if byteLen ≤ RSA_MAX_BYTES ∧ byteLen ≤ out.length then
    let full := toBeBytesFixed value
    .ok (full.drop (full.length - byteLen) ++ out.drop byteLen)
  else .panic

/-! ## Constructors -/

def exponentLen (e : Bytes) : Nat :=
  e.length - ((e.take (e.length - 1)).takeWhile (· == 0)).length

def fromNE (nBytes eBytes : Bytes) : Outcome RsaError PublicKey := do
  let n ← uintFromVariableBe nBytes
  let e ← uintFromVariableBe eBytes
  if n.isZero || !n.isOdd || n.bitLen < RSA_MIN_BITS then .err .InvalidKey
  else if e.bitLen < 2 || e.bitLen > RSA_MAX_PUBEXP_BITS || !e.isOdd || e.ctGe n then
    .err .InvalidKey
  else do
    let mu ← asserted n.computeMuForBarrett
    .ok ⟨n, e, (n.bitLen + 7) / 8, exponentLen eBytes, mu⟩

def readLength (T : Target) (data : Bytes) : Outcome RsaError (Nat × Nat) :=
  match data with
  | [] => .err .Unspecified
  | first :: _ =>
    if first &&& 0x80 = 0 then .ok (first.toNat, 1)
    else
      let numBytes := (first &&& 0x7f).toNat
      if numBytes = 0 ∨ numBytes > 4 ∨ data.length < 1 + numBytes then
        .err .Unspecified
      else do
        let octets ← getSlice data 1 (1 + numBytes)
        if octets.head? = some 0 then .err .Unspecified
        else
          let len := octets.foldl
            (fun len octet => ((len <<< 8) % 2 ^ T.usizeBits) ||| octet.toNat) 0
          if len < 0x80 then .err .Unspecified else .ok (len, 1 + numBytes)

def magnitude (bytes : Bytes) : Outcome RsaError Bytes := do
  let first ← getByte bytes 0
  if first &&& 0x80 ≠ 0 then .err .Unspecified
  else if first = 0 then
    if bytes.length < 2 then .err .Unspecified
    else do
      let second ← getByte bytes 1
      if second &&& 0x80 = 0 then .err .Unspecified else .ok (bytes.drop 1)
  else .ok bytes

def readInteger (T : Target) (data : Bytes) (outLen : Nat) :
    Outcome RsaError (Bytes × Nat) :=
  if data.length < 2 ∨ data.head? ≠ some 0x02 then .err .Unspecified
  else do
    let (len, lenSize) ← readLength T (data.drop 1)
    let consumed ← addUsize T (1 + lenSize) len
    if len = 0 ∨ data.length < consumed then .err .Unspecified
    else do
      let bytes ← getSlice data (1 + lenSize) consumed
      let value ← magnitude bytes
      if outLen < value.length then .err .Unspecified else .ok (value, consumed)

def fromPkcs1Der (T : Target) (data : Bytes) : Outcome RsaError PublicKey :=
  if data.length < 2 ∨ data.head? ≠ some 0x30 then .err .Unspecified
  else do
    let (seqLen, lenSize) ← readLength T (data.drop 1)
    let header := 1 + lenSize
    let total ← addUsize T header seqLen
    if data.length ≠ total then .err .Unspecified
    else do
      let body ← getSlice data header data.length
      let (n, consumed) ← readInteger T body RSA_MAX_BYTES
      let body ← getSlice body consumed body.length
      let (e, consumed) ← readInteger T body RSA_MAX_BYTES
      let body ← getSlice body consumed body.length
      if !body.isEmpty then .err .Unspecified else fromNE n e

/-! ## The public operation -/

/-- The working width is the smallest class that holds `2 * (limbs of n + 1)`. -/
def PublicKey.modpowPublic (debug : Bool) (key : PublicKey) (base : RsaUint) :
    Outcome RsaError RsaUint :=
  let bits := key.n.bitLen
  asserted <|
    if bits ≤ 2048 then Uint.modpowBarrettW debug 66 base key.e key.n key.mu
    else if bits ≤ 4096 then Uint.modpowBarrettW debug 130 base key.e key.n key.mu
    else if bits ≤ 6144 then Uint.modpowBarrettW debug 194 base key.e key.n key.mu
    else Uint.modpowBarrettW debug 258 base key.e key.n key.mu

/-! ## Octets and values -/

theorem limbFromBe_toNat (bytes : Bytes) (i : Nat) :
    (limbFromBe bytes i).toNat = beValue bytes / radix ^ i % radix := by
  have hpow : radix ^ i = 256 ^ (i * 8) := by
    rw [radix, Nat.mul_comm i 8, pow_mul, (by norm_num : 2 ^ 64 = 256 ^ 8)]
  have hstart : bytes.length - (i + 1) * 8 =
      (bytes.take (bytes.length - i * 8)).length - 8 := by
    rw [List.length_take]
    omega
  have hslice : slice bytes (bytes.length - (i + 1) * 8) (bytes.length - i * 8) =
      (bytes.take (bytes.length - i * 8)).drop
        ((bytes.take (bytes.length - i * 8)).length - 8) := by
    rw [slice, ← List.drop_take, ← hstart]
  rw [limbFromBe, toNat_ofNat_radix, beValue_zeros_append, hslice,
    beValue_drop_end, beValue_take_end, hpow]
  exact Nat.mod_mod_of_dvd _ (by decide)

theorem uintFromVariableBe_ok {bytes : Bytes} (h : bytes.length ≤ RSA_MAX_BYTES) :
    ∃ x, uintFromVariableBe bytes = .ok x ∧ x.value = beValue bytes := by
  refine ⟨_, if_neg (by unfold RSA_MAX_BYTES RSA_MAX_BITS at *; omega), ?_⟩
  have hlt : beValue bytes < radix ^ RSA_MAX_LIMBS :=
    calc beValue bytes < 256 ^ bytes.length := beValue_lt bytes
      _ ≤ 256 ^ RSA_MAX_BYTES := Nat.pow_le_pow_right (by omega) h
      _ = radix ^ RSA_MAX_LIMBS := by
        rw [RSA_MAX_BYTES, RSA_MAX_LIMBS, radix, ← pow_mul,
          (by norm_num : 256 = 2 ^ 8), ← pow_mul]
  rw [Uint.value, limbsValue_map_range (limbFromBe_toNat bytes), Nat.mod_eq_of_lt hlt]

theorem uintFromVariableBe_eq_ok {bytes : Bytes} {x : RsaUint}
    (h : uintFromVariableBe bytes = .ok x) :
    bytes.length ≤ RSA_MAX_BYTES ∧ x.value = beValue bytes := by
  have hlength : bytes.length ≤ RSA_MAX_BYTES := by
    by_contra hlong
    rw [uintFromVariableBe, if_pos (by unfold RSA_MAX_BYTES RSA_MAX_BITS at *; omega)] at h
    cases h
  obtain ⟨y, hy, hvalue⟩ := uintFromVariableBe_ok hlength
  obtain rfl := Outcome.ok.inj (hy.symm.trans h)
  exact ⟨hlength, hvalue⟩

theorem toBeBytesFixed_eq (x : RsaUint) :
    toBeBytesFixed x = fixedOctets RSA_MAX_BYTES x.value := by
  have hlimbs : ∀ limbs : Limbs,
      (limbs.reverse.flatMap fun limb => fixedOctets 8 limb.toNat) =
        fixedOctets (8 * limbs.length) (limbsValue limbs) := by
    intro limbs
    induction limbs with
    | nil => rfl
    | cons limb limbs ih =>
      have hword := toNat_lt_radix limb
      have hmod : (limb.toNat + radix * limbsValue limbs) % 256 ^ 8 = limb.toNat := by
        rw [(by norm_num [radix] : 256 ^ 8 = radix), Nat.add_mul_mod_self_left,
          Nat.mod_eq_of_lt hword]
      have hdiv : (limb.toNat + radix * limbsValue limbs) / 256 ^ 8 =
          limbsValue limbs := by
        rw [(by norm_num [radix] : 256 ^ 8 = radix),
          Nat.add_mul_div_left _ _ radix_pos, Nat.div_eq_of_lt hword, Nat.zero_add]
      rw [List.reverse_cons, List.flatMap_append, ih, List.flatMap_singleton,
        List.length_cons, limbsValue_cons, Nat.mul_succ, fixedOctets_add, hdiv,
        ← fixedOctets_mod 8 (limb.toNat + _), hmod]
  rw [toBeBytesFixed, hlimbs, x.length_eq]
  rfl

theorem writeUintBe_ok {x : RsaUint} {byteLen : Nat} (h : byteLen ≤ RSA_MAX_BYTES) :
    writeUintBe x (List.replicate RSA_MAX_BYTES 0) byteLen =
      .ok (fixedOctets byteLen x.value ++
        List.replicate (RSA_MAX_BYTES - byteLen) 0) := by
  rw [writeUintBe, if_pos ⟨h, by simpa using h⟩]
  simp only [toBeBytesFixed_eq, fixedOctets_length, fixedOctets_drop h, List.drop_replicate]

/-! ## Accepted keys -/

structure PublicKey.Accepted (key : PublicKey) (nBytes eBytes : Bytes) : Prop where
  n_eq : key.n.value = beValue nBytes
  e_eq : key.e.value = beValue eBytes
  n_odd : key.n.value % 2 = 1
  n_bits : RSA_MIN_BITS ≤ key.n.bitLen
  e_bits : 2 ≤ key.e.bitLen
  e_lt : key.e.value < key.n.value
  nLen_eq : key.nLen = (key.n.bitLen + 7) / 8
  mu_eq : key.n.computeMuForBarrett = some key.mu

theorem asserted_eq_ok {α : Type} {x : Option α} {a : α} :
    asserted x = .ok a ↔ x = some a := by
  cases x <;> simp [asserted]

theorem fromNE_accepted {nBytes eBytes : Bytes} {key : PublicKey}
    (h : fromNE nBytes eBytes = .ok key) : key.Accepted nBytes eBytes := by
  obtain ⟨n, hn, h⟩ := Outcome.bind_eq_ok.mp h
  obtain ⟨e, he, h⟩ := Outcome.bind_eq_ok.mp h
  split at h
  · cases h
  · next hmodulus =>
    split at h
    · cases h
    · next hexponent =>
      obtain ⟨mu, hmu, h⟩ := Outcome.bind_eq_ok.mp h
      obtain rfl := Outcome.ok.inj h
      simp only [Bool.or_eq_true, Bool.not_eq_true', decide_eq_true_eq, not_or,
        Uint.isOdd_eq, Uint.ctGe_eq, decide_eq_false_iff_not, not_not]
        at hmodulus hexponent
      obtain ⟨⟨-, hodd⟩, hbits⟩ := hmodulus
      obtain ⟨⟨⟨hlow, -⟩, -⟩, hlt⟩ := hexponent
      exact {
        n_eq := (uintFromVariableBe_eq_ok hn).2
        e_eq := (uintFromVariableBe_eq_ok he).2
        n_odd := hodd
        n_bits := Nat.le_of_not_lt hbits
        e_bits := Nat.le_of_not_lt hlow
        e_lt := Nat.lt_of_not_le hlt
        nLen_eq := rfl
        mu_eq := asserted_eq_ok.mp hmu }

theorem fromNE_accepts (nBytes eBytes : Bytes) (hn : nBytes.length ≤ RSA_MAX_BYTES)
    (he : eBytes.length ≤ RSA_MAX_BYTES) (hnodd : beValue nBytes % 2 = 1)
    (hnlow : 2 ^ (RSA_MIN_BITS - 1) ≤ beValue nBytes) (heodd : beValue eBytes % 2 = 1)
    (helow : 2 ≤ beValue eBytes) (hehigh : beValue eBytes < 2 ^ RSA_MAX_PUBEXP_BITS)
    (hlt : beValue eBytes < beValue nBytes) : ∃ key, fromNE nBytes eBytes = .ok key := by
  obtain ⟨n, hn, hnvalue⟩ := uintFromVariableBe_ok hn
  obtain ⟨e, he, hevalue⟩ := uintFromVariableBe_ok he
  rw [← hnvalue] at hnodd hnlow hlt
  rw [← hevalue] at heodd helow hehigh hlt
  have hmin : ¬n.bitLen < RSA_MIN_BITS := by
    intro hshort
    have := (Uint.bitLen_le_iff n (RSA_MIN_BITS - 1)).mp (by omega)
    omega
  have hone : ¬e.bitLen < 2 := by
    intro hshort
    have := (Uint.bitLen_le_iff e 1).mp (by omega)
    omega
  have hmax : ¬e.bitLen > RSA_MAX_PUBEXP_BITS :=
    Nat.not_lt.mpr ((Uint.bitLen_le_iff e _).mpr hehigh)
  obtain ⟨mu, hmu, -⟩ := Uint.computeMuForBarrett_value (by omega : 0 < n.value)
    (by decide)
  have hmodulus : (n.isZero || !n.isOdd || decide (n.bitLen < RSA_MIN_BITS)) = false := by
    simp [Uint.isZero_eq, Uint.isOdd_eq, hnodd, hmin]
    omega
  have hexponent : (decide (e.bitLen < 2) || decide (e.bitLen > RSA_MAX_PUBEXP_BITS) ||
      !e.isOdd || e.ctGe n) = false := by
    simp [Uint.ctGe_eq, Uint.isOdd_eq, heodd, hone, hlt]
    omega
  refine ⟨⟨n, e, (n.bitLen + 7) / 8, exponentLen eBytes, mu⟩, ?_⟩
  rw [fromNE, hn, Outcome.ok_bind, he, Outcome.ok_bind, if_neg (by rw [hmodulus]; simp),
    if_neg (by rw [hexponent]; simp), hmu]
  rfl

namespace PublicKey.Accepted

variable {key : PublicKey} {nBytes eBytes : Bytes}

theorem n_pos (h : key.Accepted nBytes eBytes) : 0 < key.n.value := by
  have := h.n_odd
  omega

theorem value_lt_two_pow (x : RsaUint) : x.value < 2 ^ RSA_MAX_BITS := by
  have hlt := Uint.value_lt x
  have hpow : radix ^ RSA_MAX_LIMBS = 2 ^ (64 * RSA_MAX_LIMBS) :=
    (pow_mul 2 64 RSA_MAX_LIMBS).symm
  have hbits : 64 * RSA_MAX_LIMBS = RSA_MAX_BITS := rfl
  rwa [hpow, hbits] at hlt

theorem bitLen_le (key : PublicKey) : key.n.bitLen ≤ RSA_MAX_BITS :=
  (Uint.bitLen_le_iff key.n _).mpr (value_lt_two_pow key.n)

theorem n_bounds (h : key.Accepted nBytes eBytes) :
    2 ^ (key.n.bitLen - 1) ≤ key.n.value ∧ key.n.value < 2 ^ key.n.bitLen := by
  have hbits := h.n_bits
  constructor
  · by_contra hlt
    have := (Uint.bitLen_le_iff key.n _).mpr (Nat.lt_of_not_le hlt)
    unfold RSA_MIN_BITS at hbits
    omega
  · exact (Uint.bitLen_le_iff key.n _).mp le_rfl

theorem nLen_le (h : key.Accepted nBytes eBytes) : key.nLen ≤ RSA_MAX_BYTES := by
  have hle := bitLen_le key
  rw [h.nLen_eq]
  unfold RSA_MAX_BYTES RSA_MAX_BITS at *
  omega

theorem nLen_bounds (h : key.Accepted nBytes eBytes) :
    256 ^ (key.nLen - 1) ≤ key.n.value ∧ key.n.value < 256 ^ key.nLen := by
  obtain ⟨hlow, hhigh⟩ := h.n_bounds
  have hbits := h.n_bits
  have h256 : 256 = 2 ^ 8 := by norm_num
  rw [h.nLen_eq, h256, ← pow_mul, ← pow_mul]
  unfold RSA_MIN_BITS at hbits
  exact ⟨(Nat.pow_le_pow_right (by omega) (by omega)).trans hlow,
    hhigh.trans_le (Nat.pow_le_pow_right (by omega) (by omega))⟩

theorem nLen_eq_length (h : key.Accepted nBytes eBytes) :
    key.nLen = (beOctets key.n.value).length := by
  obtain ⟨hlow, hhigh⟩ := h.nLen_bounds
  exact (beOctets_length_eq hlow hhigh).symm

theorem ne_radix_pow (h : key.Accepted nBytes eBytes) (j : Nat) :
    key.n.value ≠ radix ^ j := by
  intro heq
  have hodd := h.n_odd
  cases j with
  | zero =>
    obtain ⟨hlow, -⟩ := h.n_bounds
    have hbits := h.n_bits
    rw [heq, pow_zero] at hlow
    have : 2 ^ 1 ≤ 2 ^ (key.n.bitLen - 1) :=
      Nat.pow_le_pow_right (by omega) (by unfold RSA_MIN_BITS at hbits; omega)
    omega
  | succ j =>
    rw [heq, pow_succ, Nat.mul_mod] at hodd
    have : radix % 2 = 0 := rfl
    rw [this, Nat.mul_zero] at hodd
    exact absurd hodd (by decide)

theorem modpowPublic_value (h : key.Accepted nBytes eBytes) (debug : Bool)
    {base : RsaUint} (hbase : base.value < key.n.value) :
    ∃ r, key.modpowPublic debug base = .ok r ∧
      r.value = base.value ^ key.e.value % key.n.value := by
  obtain ⟨-, hhigh, hpos, hle⟩ := Uint.effLimbs_spec h.n_pos
  have hfits := hbase.trans hhigh
  have hbits : key.n.bitLen ≤ 8192 := bitLen_le key
  have heff : key.n.effLimbs = (key.n.bitLen + 63) / 64 := rfl
  have hrun : ∀ W, 2 * (key.n.effLimbs + 1) ≤ W → ∃ r,
      Uint.modpowBarrettW debug W base key.e key.n key.mu = some r ∧
        r.value = base.value ^ key.e.value % key.n.value := by
    intro W hW
    obtain ⟨r, hr, hvalue⟩ := Uint.modpowBarrettW_value h.n_pos (hle.trans (by decide)) hW
      (by decide) h.mu_eq h.ne_radix_pow (value_lt_two_pow key.e) (fun _ : debug = true => hfits)
    rw [Nat.mod_eq_of_lt hfits] at hvalue
    exact ⟨r, hr, hvalue⟩
  simp only [modpowPublic]
  split
  · obtain ⟨r, hr, hvalue⟩ := hrun 66 (by omega)
    exact ⟨r, by rw [hr]; rfl, hvalue⟩
  · split
    · obtain ⟨r, hr, hvalue⟩ := hrun 130 (by omega)
      exact ⟨r, by rw [hr]; rfl, hvalue⟩
    · split
      · obtain ⟨r, hr, hvalue⟩ := hrun 194 (by omega)
        exact ⟨r, by rw [hr]; rfl, hvalue⟩
      · obtain ⟨r, hr, hvalue⟩ := hrun 258 (by omega)
        exact ⟨r, by rw [hr]; rfl, hvalue⟩

end PublicKey.Accepted

end Stdx.Rsa
