import Mathlib
import Stdx.MlKem.Ring
import Stdx.Foundation.Packing

/-!
# Byte encodings of ML-KEM

Coefficients are compressed to 10, 11, 4 or 5 bits, or kept at 12, and packed in
chunks.  The source casts each octet to `u8` or `u16` as it goes; the casts drop
only bits that a later cast or mask drops too, so the fields are written on `Nat`
and cut once.
-/

namespace Stdx.MlKem

open Stdx.Foundation

def SYMBYTES : Nat := 32
def POLY_BYTES : Nat := 384

def polyvecBytes (K : Nat) : Nat := K * POLY_BYTES
def publicKeyBytes (K : Nat) : Nat := polyvecBytes K + SYMBYTES
def indcpaSecretKeyBytes (K : Nat) : Nat := polyvecBytes K
def secretKeySize (K : Nat) : Nat :=
  indcpaSecretKeyBytes K + publicKeyBytes K + 2 * SYMBYTES

/-- The parameter sets; the last three fields are what `unreachable!()` and
`debug_assert_eq!` rely on. -/
structure MlKemParams (K : Nat) where
  eta1 : Nat
  polycompressedbytes : Nat
  polyveccompressedbytes : Nat
  eta1_eq : eta1 = 2
  poly_eq : polycompressedbytes = 128 ∨ polycompressedbytes = 160
  polyvec_eq : polyveccompressedbytes = 960 ∧ K = 3 ∨
    polyveccompressedbytes = 1408 ∧ K = 4

def ML_KEM_768 : MlKemParams 3 := ⟨2, 128, 960, rfl, by decide, by decide⟩

def ML_KEM_1024 : MlKemParams 4 := ⟨2, 160, 1408, rfl, by decide, by decide⟩

/-! ## Packings -/

theorem mod_octet (x : Nat) : x % 256 < 2 ^ 8 := by omega

theorem lt_of_forall_lt_eight {t : Nat → Nat} {n : Nat} (ht : ∀ k, k < 8 → t k < n) :
    (t 0 < n ∧ t 1 < n ∧ t 2 < n ∧ t 3 < n) ∧ t 4 < n ∧ t 5 < n ∧ t 6 < n ∧ t 7 < n := by
  refine ⟨⟨ht 0 ?_, ht 1 ?_, ht 2 ?_, ht 3 ?_⟩, ht 4 ?_, ht 5 ?_, ht 6 ?_, ht 7 ?_⟩ <;> decide

def packing4 : Packing 8 4 4 where
  pack t := [UInt8.ofNat (t 0 ||| t 1 <<< 4), UInt8.ofNat (t 2 ||| t 3 <<< 4),
    UInt8.ofNat (t 4 ||| t 5 <<< 4), UInt8.ofNat (t 6 ||| t 7 <<< 4)]
  unpack b := [(b 0).toNat, (b 0).toNat >>> 4, (b 1).toNat, (b 1).toNat >>> 4,
    (b 2).toNat, (b 2).toNat >>> 4, (b 3).toNat, (b 3).toNat >>> 4]
  length_pack _ := rfl
  length_unpack _ := rfl
  reads b b' h := by
    rw [h 0 (by decide), h 1 (by decide), h 2 (by decide), h 3 (by decide)]
  round_trip t ht k hk := by
    obtain ⟨⟨h0, h1, h2, h3⟩, h4, h5, h6, h7⟩ := lt_of_forall_lt_eight ht
    interval_cases k <;>
      simp (disch := omega) only [List.getD_cons_zero, List.getD_cons_succ,
        octet_toNat_ofNat, Nat.shiftRight_eq_div_pow, or_shiftLeft] <;>
      omega

def packing5 : Packing 8 5 5 where
  pack t := [UInt8.ofNat (t 0 ||| t 1 <<< 5),
    UInt8.ofNat (t 1 >>> 3 ||| t 2 <<< 2 ||| t 3 <<< 7),
    UInt8.ofNat (t 3 >>> 1 ||| t 4 <<< 4),
    UInt8.ofNat (t 4 >>> 4 ||| t 5 <<< 1 ||| t 6 <<< 6),
    UInt8.ofNat (t 6 >>> 2 ||| t 7 <<< 3)]
  unpack b := [(b 0).toNat >>> 0, (b 0).toNat >>> 5 ||| (b 1).toNat <<< 3,
    (b 1).toNat >>> 2, (b 1).toNat >>> 7 ||| (b 2).toNat <<< 1,
    (b 2).toNat >>> 4 ||| (b 3).toNat <<< 4, (b 3).toNat >>> 1,
    (b 3).toNat >>> 6 ||| (b 4).toNat <<< 2, (b 4).toNat >>> 3]
  length_pack _ := rfl
  length_unpack _ := rfl
  reads b b' h := by
    rw [h 0 (by decide), h 1 (by decide), h 2 (by decide), h 3 (by decide),
      h 4 (by decide)]
  round_trip t ht k hk := by
    obtain ⟨⟨h0, h1, h2, h3⟩, h4, h5, h6, h7⟩ := lt_of_forall_lt_eight ht
    interval_cases k <;>
      simp (disch := omega) only [List.getD_cons_zero, List.getD_cons_succ,
        octet_toNat_ofNat, Nat.shiftRight_eq_div_pow, or_shiftLeft] <;>
      omega

theorem packing10_round_trip (t : Nat → Nat) (ht : ∀ k, k < 4 → t k < 2 ^ 10) (k : Nat)
    (hk : k < 4) :
    let octets := [UInt8.ofNat (t 0), UInt8.ofNat (t 0 >>> 8 ||| t 1 <<< 2),
      UInt8.ofNat (t 1 >>> 6 ||| t 2 <<< 4), UInt8.ofNat (t 2 >>> 4 ||| t 3 <<< 6),
      UInt8.ofNat (t 3 >>> 2)]
    [(octets.getD 0 0).toNat ||| (octets.getD 1 0).toNat <<< 8,
      (octets.getD 1 0).toNat >>> 2 ||| (octets.getD 2 0).toNat <<< 6,
      (octets.getD 2 0).toNat >>> 4 ||| (octets.getD 3 0).toNat <<< 4,
      (octets.getD 3 0).toNat >>> 6 ||| (octets.getD 4 0).toNat <<< 2].getD k 0 % 2 ^ 10 = t k := by
  intro octets
  subst octets
  have h0 := ht 0 (by decide)
  have h1 := ht 1 (by decide)
  have h2 := ht 2 (by decide)
  have h3 := ht 3 (by decide)
  interval_cases k <;>
    simp (disch := omega) only [List.getD_cons_zero, List.getD_cons_succ,
      octet_toNat_ofNat, Nat.shiftRight_eq_div_pow, or_shiftLeft] <;>
    omega

def packing10 : Packing 4 5 10 where
  pack t := [UInt8.ofNat (t 0), UInt8.ofNat (t 0 >>> 8 ||| t 1 <<< 2),
    UInt8.ofNat (t 1 >>> 6 ||| t 2 <<< 4), UInt8.ofNat (t 2 >>> 4 ||| t 3 <<< 6),
    UInt8.ofNat (t 3 >>> 2)]
  unpack b := [(b 0).toNat ||| (b 1).toNat <<< 8,
    (b 1).toNat >>> 2 ||| (b 2).toNat <<< 6,
    (b 2).toNat >>> 4 ||| (b 3).toNat <<< 4,
    (b 3).toNat >>> 6 ||| (b 4).toNat <<< 2]
  length_pack _ := rfl
  length_unpack _ := rfl
  reads b b' h := by
    rw [h 0 (by decide), h 1 (by decide), h 2 (by decide), h 3 (by decide),
      h 4 (by decide)]
  round_trip := packing10_round_trip

def packing11 : Packing 8 11 11 where
  pack t := [UInt8.ofNat (t 0), UInt8.ofNat (t 0 >>> 8 ||| t 1 <<< 3),
    UInt8.ofNat (t 1 >>> 5 ||| t 2 <<< 6), UInt8.ofNat (t 2 >>> 2),
    UInt8.ofNat (t 2 >>> 10 ||| t 3 <<< 1), UInt8.ofNat (t 3 >>> 7 ||| t 4 <<< 4),
    UInt8.ofNat (t 4 >>> 4 ||| t 5 <<< 7), UInt8.ofNat (t 5 >>> 1),
    UInt8.ofNat (t 5 >>> 9 ||| t 6 <<< 2), UInt8.ofNat (t 6 >>> 6 ||| t 7 <<< 5),
    UInt8.ofNat (t 7 >>> 3)]
  unpack b := [(b 0).toNat ||| (b 1).toNat <<< 8,
    (b 1).toNat >>> 3 ||| (b 2).toNat <<< 5,
    (b 2).toNat >>> 6 ||| (b 3).toNat <<< 2 ||| (b 4).toNat <<< 10,
    (b 4).toNat >>> 1 ||| (b 5).toNat <<< 7,
    (b 5).toNat >>> 4 ||| (b 6).toNat <<< 4,
    (b 6).toNat >>> 7 ||| (b 7).toNat <<< 1 ||| (b 8).toNat <<< 9,
    (b 8).toNat >>> 2 ||| (b 9).toNat <<< 6,
    (b 9).toNat >>> 5 ||| (b 10).toNat <<< 3]
  length_pack _ := rfl
  length_unpack _ := rfl
  reads b b' h := by
    rw [h 0 (by decide), h 1 (by decide), h 2 (by decide), h 3 (by decide),
      h 4 (by decide), h 5 (by decide), h 6 (by decide), h 7 (by decide),
      h 8 (by decide), h 9 (by decide), h 10 (by decide)]
  round_trip t ht k hk := by
    obtain ⟨⟨h0, h1, h2, h3⟩, h4, h5, h6, h7⟩ := lt_of_forall_lt_eight ht
    interval_cases k <;>
      simp (disch := first | exact mod_octet _ | omega) only [List.getD_cons_zero,
        List.getD_cons_succ,
        octet_toNat_ofNat, Nat.shiftRight_eq_div_pow, or_shiftLeft] <;>
      omega

def packing12 : Packing 2 3 12 where
  pack t := [UInt8.ofNat (t 0), UInt8.ofNat (t 0 >>> 8 ||| t 1 <<< 4),
    UInt8.ofNat (t 1 >>> 4)]
  unpack b := [(b 0).toNat ||| (b 1).toNat <<< 8,
    (b 1).toNat >>> 4 ||| (b 2).toNat <<< 4]
  length_pack _ := rfl
  length_unpack _ := rfl
  reads b b' h := by rw [h 0 (by decide), h 1 (by decide), h 2 (by decide)]
  round_trip t ht k hk := by
    have h0 := ht 0 (by decide)
    have h1 := ht 1 (by decide)
    interval_cases k <;>
      simp (disch := first | exact mod_octet _ | omega) only [List.getD_cons_zero,
        List.getD_cons_succ,
        octet_toNat_ofNat, Nat.shiftRight_eq_div_pow, or_shiftLeft] <;>
      omega

/-! ## Coefficients -/

/-- `u += (u >> 15) & Q`: the nonnegative representative of a reduced coefficient. -/
def addQ (c : Int) : Int := c + if c >>> (15 : Nat) = -1 then Q else 0

/-- The `as u64` cast. -/
def asU64 (u : Int) : Nat := (u % 2 ^ 64).toNat

def compressCoeff (d add mul shift : Nat) (c : Int) : Nat :=
  ((asU64 (addQ c) <<< d + add) * mul) >>> shift &&& (2 ^ d - 1)

def compress10 : Int → Nat := compressCoeff 10 1665 1290167 32
def compress11 : Int → Nat := compressCoeff 11 1664 645084 31
def compress4 : Int → Nat := compressCoeff 4 1665 80635 28
def compress5 : Int → Nat := compressCoeff 5 1664 40318 27

def decompressCoeff (d : Nat) (t : Nat) : Int :=
  (((t &&& (2 ^ d - 1)) * 3329 + 2 ^ (d - 1)) >>> d : Nat)

theorem compressCoeff_lt (d add mul shift : Nat) (c : Int) :
    compressCoeff d add mul shift c < 2 ^ d := by
  rw [compressCoeff, Nat.and_two_pow_sub_one_eq_mod]
  exact Nat.mod_lt _ (by positivity)

theorem decompressCoeff_mod (d t : Nat) :
    decompressCoeff d (t % 2 ^ d) = decompressCoeff d t := by
  simp only [decompressCoeff, Nat.and_two_pow_sub_one_eq_mod, Nat.mod_mod]

theorem decompressCoeff_range {d : Nat} (hd : 0 < d) (t : Nat) :
    0 ≤ decompressCoeff d t ∧ decompressCoeff d t ≤ 3329 := by
  refine ⟨Int.natCast_nonneg _, ?_⟩
  have hpow : 2 ^ d = 2 * 2 ^ (d - 1) := by
    rw [← pow_succ']
    congr 1
    omega
  have hlt := Nat.mod_lt t (show 0 < 2 ^ d by positivity)
  have hquot : ((t &&& (2 ^ d - 1)) * 3329 + 2 ^ (d - 1)) >>> d ≤ 3329 := by
    rw [Nat.and_two_pow_sub_one_eq_mod, Nat.shiftRight_eq_div_pow,
      Nat.div_le_iff_le_mul_add_pred (by positivity)]
    omega
  rw [decompressCoeff]
  exact_mod_cast hquot

/-! ## Polynomials -/

section Polynomials

variable {m w d : Nat}

def packPoly (P : Packing m w d) (f : Int → Nat) (poly : Poly) : Bytes :=
  P.packAll (N / m) fun i => f (poly.coeff i)

def unpackPoly (P : Packing m w d) (hm : m * (N / m) = N) (f : Nat → Int)
    (octet : Nat → UInt8) : Poly :=
  ⟨(P.unpackAll (N / m) octet).map f, by rw [List.length_map, P.length_unpackAll, hm]⟩

theorem coeff_unpackPoly {P : Packing m w d} (hm : m * (N / m) = N) {f : Int → Nat}
    {g : Nat → Int} (hg : ∀ t, g (t % 2 ^ d) = g t) {poly : Poly}
    (hf : ∀ i, i < N → f (poly.coeff i) < 2 ^ d) {octet : Nat → UInt8}
    (hoctet : ∀ i, i < w * (N / m) → octet i = (packPoly P f poly).getD i 0) {i : Nat}
    (hi : i < N) :
    (unpackPoly P hm g octet).coeff i = g (f (poly.coeff i)) := by
  have hi' : i < m * (N / m) := by rw [hm]; exact hi
  have hvalue := Packing.unpackAll_packAll (P := P)
    (v := fun i => f (poly.coeff i)) (fun i hi => hf i (by rwa [hm] at hi))
    hoctet hi'
  rw [Poly.coeff, unpackPoly, getD_map_of_lt g (by rwa [P.length_unpackAll]) 0 0,
    ← hg, hvalue]

end Polynomials

variable {K : Nat}

@[grind =]
def polyCompress (params : MlKemParams K) (poly : Poly) : Bytes :=
  match params.polycompressedbytes with
  | 128 => packPoly packing4 compress4 poly
  | 160 => packPoly packing5 compress5 poly
  | _ => []

@[grind =]
def polyDecompress (params : MlKemParams K) (input : Bytes) : Poly :=
  match params.polycompressedbytes with
  | 128 => unpackPoly packing4 (by decide) (decompressCoeff 4) fun i => input.getD i 0
  | 160 => unpackPoly packing5 (by decide) (decompressCoeff 5) fun i => input.getD i 0
  | _ => .zero

@[grind =]
def polyTobytes (poly : Poly) : Bytes :=
  packPoly packing12 (fun c => asU64 (addQ c)) poly

@[grind =]
def polyFrombytes (input : Bytes) : Poly :=
  unpackPoly packing12 (by decide) (fun t => ((t &&& 0xfff : Nat) : Int)) fun i => input.getD i 0

@[grind =]
def polyvecCompress (params : MlKemParams K) (a : PolyVec K) : Bytes :=
  match params.polyveccompressedbytes with
  | 960 => ofChunks K fun p => packPoly packing10 compress10 (a.get p)
  | 1408 => ofChunks K fun p => packPoly packing11 compress11 (a.get p)
  | _ => []

theorem quarters : 4 * (N / 4) = N := by decide

theorem eighths : 8 * (N / 8) = N := by decide

@[grind =]
def polyvecDecompress (params : MlKemParams K) (input : Bytes) : PolyVec K :=
  match params.polyveccompressedbytes with
  | 960 => .ofFn K fun p =>
    unpackPoly packing10 quarters (decompressCoeff 10) fun i => input.getD (320 * p + i) 0
  | 1408 => .ofFn K fun p =>
    unpackPoly packing11 eighths (decompressCoeff 11) fun i => input.getD (352 * p + i) 0
  | _ => .ofFn K fun _ => .zero

@[grind =]
def polyvecTobytes (v : PolyVec K) : Bytes :=
  ofChunks K fun i => polyTobytes (v.get i)

@[grind =]
def polyvecFrombytes (K : Nat) (input : Bytes) : PolyVec K :=
  .ofFn K fun i => polyFrombytes ((input.drop (i * POLY_BYTES)).take POLY_BYTES)

/-! ## Messages -/

@[grind =]
def polyFrommsg (msg : Bytes) : Poly :=
  .ofChunks 8 (N / 8) (fun i => (List.range 8).map fun j =>
    -- `(-bit) & half_q`
    if (msg.getD i 0).toNat >>> j &&& 1 = 1 then (Q + 1) / 2 else 0)
    (by decide) fun _ _ => by simp

def tomsgBit (c : Int) : Nat :=
  ((((c <<< (1 : Nat)) + 1665) * 80635) >>> (28 : Nat) % 2).toNat

@[grind =]
def polyTomsg (poly : Poly) : Bytes :=
  (List.range (N / 8)).map fun i =>
    forRange 0 8 (fun j octet =>
      octet ||| UInt8.ofNat (tomsgBit (poly.coeff (8 * i + j)) <<< j)) 0

end Stdx.MlKem
