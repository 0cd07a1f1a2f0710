import Stdx.BigNumber.Arithmetic
import Stdx.Foundation.Octets

/-!
# Curve parameters and byte buffers

The trait `Curve` of `crypto/src/p_curves/p_curves.rs` as a record, with the
sizes its buffers and assertions rely on as fields, and the byte conversions of
`UintOps`.  Digest, HMAC and the two modular multiplications are what a curve
supplies.
-/

namespace Stdx.PCurves

open Stdx.Foundation
open Stdx.BigNumber

def MAX_DIGEST_BYTES : Nat := 64

def MAX_NONCE_BLOCKS : Nat := 2

def MAX_NONCE_BYTES : Nat := MAX_NONCE_BLOCKS * MAX_DIGEST_BYTES

/-! ## Conversions -/

def readBeLimbs : Nat → Bytes → Limbs
  | 0, _ => []
  | count + 1, octets =>
    let take := min 8 octets.length
    let idx := octets.length - take
    UInt64.ofNat (beValue (octets.drop idx)) ::
      readBeLimbs count (octets.take idx)

@[simp] theorem readBeLimbs_length (count : Nat) (octets : Bytes) :
    (readBeLimbs count octets).length = count := by
  induction count generalizing octets with
  | zero => rfl
  | succ count ih => simp [readBeLimbs, ih]

def readBe {BITS LIMBS : Nat} (octets : Bytes) : Uint BITS LIMBS :=
  ⟨readBeLimbs LIMBS octets, readBeLimbs_length LIMBS octets⟩

def writeBeLimbs : Limbs → Nat → Bytes
  | [], idx => List.replicate idx 0
  | limb :: limbs, idx =>
    let take := min 8 idx
    writeBeLimbs limbs (idx - take) ++ (fixedOctets 8 limb.toNat).drop (8 - take)

@[simp] theorem writeBeLimbs_length (limbs : Limbs) (idx : Nat) :
    (writeBeLimbs limbs idx).length = idx := by
  induction limbs generalizing idx with
  | nil => simp [writeBeLimbs]
  | cons limb limbs ih =>
    simp only [writeBeLimbs, List.length_append, ih, List.length_drop,
      fixedOctets_length]
    omega

def writeBe {BITS LIMBS : Nat} (x : Uint BITS LIMBS) (N : Nat) : FixedBytes N :=
  ⟨writeBeLimbs x.limbs N, writeBeLimbs_length x.limbs N⟩

theorem readBeLimbs_value {count : Nat} {octets : Bytes}
    (h : octets.length ≤ count * 8) :
    limbsValue (readBeLimbs count octets) = beValue octets := by
  induction count generalizing octets with
  | zero =>
    obtain rfl := List.length_eq_zero_iff.mp (by omega : octets.length = 0)
    rfl
  | succ count ih =>
    have hdrop := beValue_lt (octets.drop (octets.length - min 8 octets.length))
    rw [List.length_drop] at hdrop
    have hlt : beValue (octets.drop (octets.length - min 8 octets.length)) <
        radix :=
      hdrop.trans_le (by
        calc 256 ^ (octets.length - (octets.length - min 8 octets.length))
            ≤ 256 ^ 8 := Nat.pow_le_pow_right (by omega) (by omega)
          _ = radix := by decide)
    simp only [readBeLimbs, limbsValue_cons]
    rw [toNat_ofNat_radix, Nat.mod_eq_of_lt hlt,
      ih (by rw [List.length_take]; omega)]
    rcases Nat.le_total 8 octets.length with hlong | hshort
    · rw [Nat.min_eq_left hlong] at hlt ⊢
      have hsplit := beValue_take_drop octets (octets.length - 8)
      rw [show octets.length - (octets.length - 8) = 8 by omega,
        show (256 : Nat) ^ 8 = radix by decide] at hsplit
      rw [hsplit]
      ring
    · rw [Nat.min_eq_right hshort, Nat.sub_self]
      simp

theorem readBe_value {BITS LIMBS : Nat} {octets : Bytes}
    (h : octets.length ≤ LIMBS * 8) :
    (readBe octets : Uint BITS LIMBS).value = beValue octets :=
  readBeLimbs_value h

theorem beValue_drop (octets : Bytes) (i : Nat) :
    beValue (octets.drop i) = beValue octets % 256 ^ (octets.length - i) := by
  have hlt := beValue_lt (octets.drop i)
  rw [List.length_drop] at hlt
  rw [beValue_take_drop octets i, Nat.mul_comm, Nat.mul_add_mod,
    Nat.mod_eq_of_lt hlt]

theorem writeBeLimbs_value (limbs : Limbs) (idx : Nat) :
    beValue (writeBeLimbs limbs idx) = limbsValue limbs % 256 ^ idx := by
  induction limbs generalizing idx with
  | nil =>
    have hzero : ∀ n, beValue (List.replicate n 0) = 0 := by
      intro n
      induction n with
      | zero => rfl
      | succ n ih => rw [List.replicate_succ, beValue_cons, ih]; simp
    simp [writeBeLimbs, hzero]
  | cons limb limbs ih =>
    have hlimb := toNat_lt_radix limb
    have hradix : (256 : Nat) ^ 8 = radix := by decide
    simp only [writeBeLimbs, beValue_append, ih, limbsValue_cons,
      List.length_drop, fixedOctets_length]
    rw [beValue_drop, fixedOctets_length, beValue_fixedOctets, hradix,
      Nat.mod_eq_of_lt hlimb]
    rcases Nat.le_total 8 idx with hlong | hshort
    · rw [Nat.min_eq_left hlong, Nat.sub_self, Nat.sub_zero, hradix,
        Nat.mod_eq_of_lt hlimb]
      conv_rhs => rw [show idx = 8 + (idx - 8) by omega, pow_add, hradix,
        Nat.mod_mul, Nat.add_mul_mod_self_left, Nat.mod_eq_of_lt hlimb,
        Nat.add_mul_div_left _ _ radix_pos, Nat.div_eq_of_lt hlimb, Nat.zero_add]
      ring
    · have hdvd : 256 ^ idx ∣ radix := by
        rw [← hradix]
        exact pow_dvd_pow _ hshort
      obtain ⟨c, hc⟩ := hdvd
      rw [Nat.min_eq_right hshort, Nat.sub_self, pow_zero, Nat.mod_one,
        Nat.zero_mul, Nat.zero_add, show 8 - (8 - idx) = idx by omega, hc,
        Nat.mul_assoc, Nat.add_mul_mod_self_left]

theorem writeBe_value {BITS LIMBS : Nat} (x : Uint BITS LIMBS) (N : Nat) :
    beValue (writeBe x N).octets = x.value % 256 ^ N :=
  writeBeLimbs_value x.limbs N

theorem writeBe_readBe {BITS LIMBS N : Nat} (hN : N ≤ LIMBS * 8)
    (octets : FixedBytes N) :
    writeBe (readBe octets.octets : Uint BITS LIMBS) N = octets := by
  have hlt := beValue_lt octets.octets
  rw [octets.length_eq] at hlt
  apply FixedBytes.ext
  apply beValue_inj
  · rw [(writeBe _ N).length_eq, octets.length_eq]
  · rw [writeBe_value, readBe_value (by rw [octets.length_eq]; exact hN),
      Nat.mod_eq_of_lt hlt]

/-! ## The trait -/

/-- What a curve supplies.  `field_sqrt` and `random_secret_key` are left out:
only key parsing and key generation call them. -/
structure Curve where
  BITS : Nat
  LIMBS : Nat
  FIELD_BITS : Nat
  FIELD_BYTES : Nat
  DIGEST_BYTES : Nat
  MODULUS_P : Uint BITS LIMBS
  MODULUS_N : Uint BITS LIMBS
  N_HALF : Uint BITS LIMBS
  P_MINUS_TWO : Uint BITS LIMBS
  N_MINUS_TWO : Uint BITS LIMBS
  CURVE_B : Uint BITS LIMBS
  GENERATOR_X : Uint BITS LIMBS
  GENERATOR_Y : Uint BITS LIMBS
  fieldMul : Uint BITS LIMBS → Uint BITS LIMBS → Uint BITS LIMBS
  scalarMul : Uint BITS LIMBS → Uint BITS LIMBS → Uint BITS LIMBS
  hash : Bytes → FixedBytes DIGEST_BYTES
  hmac : Bytes → Bytes → FixedBytes DIGEST_BYTES
  scalarFromDigest : FixedBytes DIGEST_BYTES → Uint BITS LIMBS
  scalarFromFieldBytes : FixedBytes FIELD_BYTES → Uint BITS LIMBS
  fieldBytes_eq : FIELD_BYTES = (FIELD_BITS + 7) / 8
  fieldBytes_le : FIELD_BYTES ≤ LIMBS * 8
  digestBytes_pos : 0 < DIGEST_BYTES
  nonceBytes_le : (FIELD_BITS + (DIGEST_BYTES * 8 - 1)) / (DIGEST_BYTES * 8) *
    DIGEST_BYTES ≤ MAX_NONCE_BYTES

namespace Curve

abbrev U (C : Curve) : Type := Uint C.BITS C.LIMBS

abbrev FieldBytes (C : Curve) : Type := FixedBytes C.FIELD_BYTES

abbrev DigestBytes (C : Curve) : Type := FixedBytes C.DIGEST_BYTES

/-- `FIELD_BITS.div_ceil(DIGEST_BYTES * 8)` -/
def nonceBlocks (C : Curve) : Nat :=
  (C.FIELD_BITS + (C.DIGEST_BYTES * 8 - 1)) / (C.DIGEST_BYTES * 8)

end Curve

end Stdx.PCurves
