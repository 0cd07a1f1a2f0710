import Stdx.MlDsa.Codec
import Stdx.MlDsa.Transform

/-!
# The encodings of ML-DSA round trip

Public keys and responses: what is encoded is decoded again, and every octet string of the
right length is the encoding of what it decodes to.
-/

namespace Stdx.MlDsa

open Stdx.Foundation

/-! ## The packings lose no octet -/

theorem packing10_onto : packing10.Onto where
  writes t t' h := by
    simp only [packing10, h 0 (by decide), h 1 (by decide), h 2 (by decide), h 3 (by decide)]
  pack_unpack octet := by
    have h0 := (octet 0).toNat_lt
    have h1 := (octet 1).toNat_lt
    have h2 := (octet 2).toNat_lt
    have h3 := (octet 3).toNat_lt
    have h4 := (octet 4).toNat_lt
    change [_, _, _, _, _] = [_, _, _, _, _]
    simp only [List.cons.injEq, and_true]
    refine ⟨?_, ?_, ?_, ?_, ?_⟩ <;> apply UInt8.toNat_inj.mp <;>
      simp (disch := omega) only [packing10, List.getD_cons_zero, List.getD_cons_succ,
        octet_toNat_ofNat, Nat.shiftRight_eq_div_pow, or_shiftLeft, and_mask2, and_mask4,
        and_mask6, show 0xff = 2 ^ 8 - 1 from rfl, Nat.and_two_pow_sub_one_eq_mod] <;>
      omega

/-- The masks of `pk_decode` keep ten bits. -/
theorem packing10_unpack_lt (octet : Nat → UInt8) {k : Nat} (hk : k < 4) :
    (packing10.unpack octet).getD k 0 < 2 ^ 10 := by
  have h0 := (octet 0).toNat_lt
  have h1 := (octet 1).toNat_lt
  have h2 := (octet 2).toNat_lt
  have h3 := (octet 3).toNat_lt
  have h4 := (octet 4).toNat_lt
  interval_cases k <;>
    simp (disch := omega) only [packing10, List.getD_cons_zero, List.getD_cons_succ,
      Nat.shiftRight_eq_div_pow, or_shiftLeft, and_mask2, and_mask4, and_mask6, and_mask8] <;>
    omega

theorem packing18_onto : packing18.Onto where
  writes t t' h := by
    simp only [packing18, h 0 (by decide), h 1 (by decide), h 2 (by decide), h 3 (by decide)]
  pack_unpack octet := by
    have h0 := (octet 0).toNat_lt
    have h1 := (octet 1).toNat_lt
    have h2 := (octet 2).toNat_lt
    have h3 := (octet 3).toNat_lt
    have h4 := (octet 4).toNat_lt
    have h5 := (octet 5).toNat_lt
    have h6 := (octet 6).toNat_lt
    have h7 := (octet 7).toNat_lt
    have h8 := (octet 8).toNat_lt
    change [_, _, _, _, _, _, _, _, _] = [_, _, _, _, _, _, _, _, _]
    simp only [List.cons.injEq, and_true]
    refine ⟨?_, ?_, ?_, ?_, ?_, ?_, ?_, ?_, ?_⟩ <;> apply UInt8.toNat_inj.mp <;>
      simp (disch := omega) only [packing18, List.getD_cons_zero, List.getD_cons_succ,
        octet_toNat_ofNat, Nat.shiftRight_eq_div_pow, or_shiftLeft] <;>
      omega

theorem packing20_onto : packing20.Onto where
  writes t t' h := by simp only [packing20, h 0 (by decide), h 1 (by decide)]
  pack_unpack octet := by
    have h0 := (octet 0).toNat_lt
    have h1 := (octet 1).toNat_lt
    have h2 := (octet 2).toNat_lt
    have h3 := (octet 3).toNat_lt
    have h4 := (octet 4).toNat_lt
    change [_, _, _, _, _] = [_, _, _, _, _]
    simp only [List.cons.injEq, and_true]
    refine ⟨?_, ?_, ?_, ?_, ?_⟩ <;> apply UInt8.toNat_inj.mp <;>
      simp (disch := omega) only [packing20, List.getD_cons_zero, List.getD_cons_succ,
        octet_toNat_ofNat, Nat.shiftRight_eq_div_pow, or_shiftLeft, and_mask4] <;>
      omega

/-! ## Public keys -/

def pkRow (pk : Bytes) (r i : Nat) : Nat :=
  (packing10.unpackAll (N / 4) fun k => pk.getD (32 + 320 * r + k) 0).getD i 0

theorem pkRow_lt (pk : Bytes) (r : Nat) {i : Nat} (hi : i < N) : pkRow pk r i < 2 ^ 10 := by
  refine forall_chunk (m := 4) (n := N / 4) (P := fun i => pkRow pk r i < 2 ^ 10) (by decide)
    (fun j k hj hk => ?_) (hi.trans_eq (by decide))
  rw [pkRow, Packing.getD_unpackAll _ hj hk]
  exact packing10_unpack_lt _ hk

section PublicKey

variable {K L : Nat} (params : MlDsaParams K L)

theorem pkDecode_eq {pk : Bytes} (hpk : pk.length = params.publicKeySize) :
    pkDecode params pk = .ok (pk.take 32, pkRow pk) := if_neg (not_not.mpr hpk)

theorem length_packRow (row : Nat → Nat) : (packing10.packAll (N / 4) row).length = 320 :=
  Packing.length_packAll _ _ _

theorem length_pkEncode (rho : Bytes) (t1 : Nat → Nat → Nat) :
    (pkEncode K rho t1).length = rho.length + 320 * K := by
  rw [pkEncode, List.length_append, length_ofChunks fun r _ => length_packRow (t1 r)]

theorem pkRow_pkEncode {rho : Bytes} (hrho : rho.length = 32) {t1 : Nat → Nat → Nat}
    (ht1 : ∀ r < K, ∀ i < N, t1 r i < 2 ^ 10) {r i : Nat} (hr : r < K) (hi : i < N) :
    pkRow (pkEncode K rho t1) r i = t1 r i := by
  have hoctet : ∀ k, k < 5 * (N / 4) → (pkEncode K rho t1).getD (32 + 320 * r + k) 0 =
      (packing10.packAll (N / 4) (t1 r)).getD k 0 := by
    intro k hk
    rw [pkEncode, List.getD_append_right _ _ _ _ (by omega), hrho,
      show 32 + 320 * r + k - 32 = 320 * r + k by omega,
      getD_ofChunks (fun r _ => length_packRow (t1 r)) hr hk]
  have hvalue := @Packing.unpackAll_packAll _ _ _ packing10 (N / 4) _
    (fun i hi => ht1 r hr i (hi.trans_eq (by decide))) _ hoctet _ (hi.trans_eq (by decide))
  exact (Nat.mod_eq_of_lt (pkRow_lt _ r hi)).symm.trans hvalue

theorem pkEncode_pkRow {pk : Bytes} (hpk : pk.length = 32 + K * 320) :
    pkEncode K (pk.take 32) (pkRow pk) = pk := by
  have hrow : ∀ r, packing10.packAll (N / 4) (pkRow pk r) =
      (List.range 320).map fun k => pk.getD (32 + 320 * r + k) 0 := fun r =>
    packing10_onto.packAll_unpackAll fun i hi => (Nat.mod_eq_of_lt (pkRow_lt pk r hi)).symm
  have hchunk : ∀ r, r < K → (packing10.packAll (N / 4) (pkRow pk r)).length = 320 :=
    fun r _ => length_packRow _
  have hrows : (ofChunks K fun r => packing10.packAll (N / 4) (pkRow pk r)) = pk.drop 32 := by
    refine ext_getD (by rw [length_ofChunks hchunk, List.length_drop]; omega) 0 fun i hi => ?_
    rw [length_ofChunks hchunk] at hi
    refine forall_chunk (m := 320) (n := K) (P := fun i => (ofChunks K fun r =>
      packing10.packAll (N / 4) (pkRow pk r)).getD i 0 = (pk.drop 32).getD i 0)
      (by decide) (fun r k hr hk => ?_) hi
    rw [getD_ofChunks hchunk hr hk, hrow r, getD_map_range _ hk,
      List.getD_eq_getElem?_getD, List.getD_eq_getElem?_getD, List.getElem?_drop, Nat.add_assoc]
  rw [pkEncode, hrows, List.take_append_drop]

end PublicKey

/-! ## Responses -/

theorem fieldCenteredMod_spec {c : Nat} (hc : c ≤ 2 ^ 32 * Q) :
    ((fieldCenteredMod c : Int) : F) = value c ∧
      -4190208 ≤ fieldCenteredMod c ∧ fieldCenteredMod c ≤ 4190208 := by
  obtain ⟨hlt, hcast⟩ := fieldMontgomeryReduce_spec hc
  rw [fieldCenteredMod, fieldFromMontgomery]
  generalize fieldMontgomeryReduce c = x at hlt hcast
  have hhalf : ((Q / 2 : Nat) : Int) = 4190208 := rfl
  have hzero : (8380417 : F) = 0 := rfl
  simp only [Q] at hlt
  simp only [selectNeg, Int.shiftRight_eq_div_pow]
  split
  · next hneg =>
    refine ⟨?_, ?_, ?_⟩
    · push_cast [Q]
      rw [hzero, hcast, sub_zero, value]
    all_goals simp only [Q] at hneg ⊢; omega
  · next hneg =>
    refine ⟨?_, ?_, ?_⟩
    · rw [Int.cast_natCast, hcast, value]
    all_goals simp only [Q] at hneg ⊢; omega

section Response

variable {bits : Nat}

theorem two_pow_le (hbits : bits ≤ 19) : 2 ^ bits ≤ 524288 :=
  Nat.pow_le_pow_right (by decide) hbits

theorem zField_spec (hbits : bits ≤ 19) {c : Nat} (hc : c < 2 ^ 32)
    (hlo : -(2 ^ bits : Int) < fieldCenteredMod c) (hhi : fieldCenteredMod c ≤ 2 ^ bits) :
    zField bits c < 2 ^ (bits + 1) ∧ fieldSubToMontgomery (2 ^ bits) (zField bits c) = c % Q := by
  have hpow := two_pow_le hbits
  have hcast : ((2 ^ bits : Nat) : Int) = 2 ^ bits := by push_cast; rfl
  rw [← hcast] at hlo hhi
  have hfield : (zField bits c : Int) = (2 ^ bits : Nat) - fieldCenteredMod c := by
    rw [zField, ← hcast]
    omega
  have hlt : zField bits c < 2 ^ (bits + 1) := by
    rw [pow_succ]
    omega
  rw [pow_succ] at hlt
  refine ⟨by rwa [pow_succ], ?_⟩
  obtain ⟨hreduced, hvalue⟩ := fieldSubToMontgomery_spec (a := 2 ^ bits) (b := zField bits c)
    (by simp only [Q]; omega) (by simp only [Q]; omega) (by simp only [Q]; omega)
  refine value_inj hreduced (Nat.mod_lt _ (by decide)) ?_
  have hz := congrArg (fun n : Int => (n : F)) hfield
  have hcentered := (fieldCenteredMod_spec (c := c) (by simp only [Q]; omega)).1
  push_cast at hz
  rw [hvalue, hz, hcentered, value, value, show ((c % Q : Nat) : F) = c from ?_]
  · push_cast
    ring
  · exact ZMod.natCast_mod c 8380417

theorem zField_fieldSubToMontgomery (hbits : bits ≤ 19) {w : Nat} (hw : w < 2 ^ (bits + 1)) :
    zField bits (fieldSubToMontgomery (2 ^ bits) w) = w := by
  have hpow := two_pow_le hbits
  have hcast : ((2 ^ bits : Nat) : Int) = 2 ^ bits := by push_cast; rfl
  rw [pow_succ] at hw
  obtain ⟨hreduced, hvalue⟩ := fieldSubToMontgomery_spec (a := 2 ^ bits) (b := w)
    (by simp only [Q]; omega) (by simp only [Q]; omega) (by simp only [Q]; omega)
  generalize fieldSubToMontgomery (2 ^ bits) w = c at hreduced hvalue
  obtain ⟨hcentered, hlo, hhi⟩ := fieldCenteredMod_spec (c := c) (by simp only [Q] at *; omega)
  have heq : fieldCenteredMod c = (2 ^ bits : Nat) - (w : Int) := by
    have hF : ((fieldCenteredMod c : Int) : F) = (((2 ^ bits : Nat) - (w : Int) : Int) : F) := by
      rw [hcentered, hvalue]
      push_cast
      ring
    rw [ZMod.intCast_eq_intCast_iff, Int.modEq_iff_dvd] at hF
    omega
  rw [zField, heq, ← hcast]
  omega

variable {m w : Nat} {P : Packing m w (bits + 1)}

theorem unpack_pack_zField (hbits : bits ≤ 19) (hm : m * (N / m) = N) {z : Poly}
    (hz : ∀ i < N, z.coeff i < 2 ^ 32)
    (hlo : ∀ i < N, -(2 ^ bits : Int) < fieldCenteredMod (z.coeff i))
    (hhi : ∀ i < N, fieldCenteredMod (z.coeff i) ≤ 2 ^ bits) {o : Nat → UInt8}
    (hoctet : ∀ k, k < w * (N / m) →
      o k = (P.packAll (N / m) fun i => zField bits (z.coeff i)).getD k 0) :
    (P.unpackAll (N / m) o).map (fun f =>
      fieldSubToMontgomery (2 ^ bits) (f &&& (2 ^ (bits + 1) - 1))) = z.coeffs.map (· % Q) := by
  refine ext_getD (by rw [List.length_map, P.length_unpackAll, hm, List.length_map, z.length_eq]) 0
    fun i hi => ?_
  rw [List.length_map, P.length_unpackAll] at hi
  have hiN : i < N := hm ▸ hi
  have hspec := fun i hi => zField_spec hbits (hz i hi) (hlo i hi) (hhi i hi)
  have hvalue := Packing.unpackAll_packAll (P := P) (fun i hi => (hspec i (hm ▸ hi)).1) hoctet hi
  rw [getD_map_of_lt _ (by rwa [P.length_unpackAll]) 0 0,
    getD_map_of_lt _ (by rwa [z.length_eq]) 0 0, Nat.and_two_pow_sub_one_eq_mod, hvalue,
    (hspec i hiN).2]
  rfl

theorem pack_unpack_zField (hP : P.Onto) (hbits : bits ≤ 19) (octet : Nat → UInt8) :
    P.packAll (N / m) (fun i => zField bits (((P.unpackAll (N / m) octet).map fun f =>
      fieldSubToMontgomery (2 ^ bits) (f &&& (2 ^ (bits + 1) - 1))).getD i 0)) =
        (List.range (w * (N / m))).map octet := by
  refine hP.packAll_unpackAll fun i hi => ?_
  rw [getD_map_of_lt _ (by rwa [P.length_unpackAll]) 0 0, Nat.and_two_pow_sub_one_eq_mod,
    zField_fieldSubToMontgomery hbits (Nat.mod_lt _ (by positivity))]

end Response

theorem PolyIn.ext_coeffs {d : Domain} {p q : PolyIn d} (h : p.coeffs = q.coeffs) : p = q := by
  cases p
  cases q
  exact (PolyIn.mk.injEq ..).mpr h

theorem PolyIn.map_mod_eq {d : Domain} {p : PolyIn d} (hp : p.Reduced) :
    p.map (· % Q) = p := by
  refine ext_coeffs (ext_getD (List.length_map _) 0 fun i hi => ?_)
  rw [PolyIn.map, List.length_map] at hi
  rw [PolyIn.map, getD_map_of_lt _ hi 0 0]
  rw [p.length_eq] at hi
  exact Nat.mod_eq_of_lt (hp i hi)

section Params

variable {K L : Nat} (params : MlDsaParams K L)

theorem bitunpack_bitpack {z : Poly} (hz : ∀ i < N, z.coeff i < 2 ^ 32)
    (hlo : ∀ i < N, -(params.gamma1 : Int) < fieldCenteredMod (z.coeff i))
    (hhi : ∀ i < N, fieldCenteredMod (z.coeff i) ≤ params.gamma1) :
    bitunpack (fun k => (bitpack z params.gamma1Bits).getD k 0) params.gamma1Bits =
      z.map (· % Q) := by
  obtain ⟨hbits, hgamma, -⟩ | ⟨hbits, hgamma, -⟩ := params.gamma1_eq
  · rw [hbits]
    rw [hgamma] at hlo hhi
    have hcoeffs := unpack_pack_zField (P := packing18) (z := z) (by decide) (by decide) hz hlo hhi
      (o := fun k => (bitpack z 17).getD k 0) fun k _ => rfl
    exact PolyIn.ext_coeffs hcoeffs
  · rw [hbits]
    rw [hgamma] at hlo hhi
    have hcoeffs := unpack_pack_zField (P := packing20) (z := z) (by decide) (by decide) hz hlo hhi
      (o := fun k => (bitpack z 19).getD k 0) fun k _ => rfl
    exact PolyIn.ext_coeffs hcoeffs

theorem bitpack_bitunpack {v : Bytes} (hv : v.length = params.polyzBytes) :
    bitpack (bitunpack (fun k => v.getD k 0) params.gamma1Bits) params.gamma1Bits = v := by
  have hself : (List.range v.length).map (fun k => v.getD k 0) = v :=
    ext_getD (by simp) 0 fun i hi => getD_map_range _ (by simpa using hi) 0
  obtain ⟨hbits, -, hbytes⟩ | ⟨hbits, -, hbytes⟩ := params.gamma1_eq
  · rw [hbits]
    rw [hv, hbytes] at hself
    have hpack := pack_unpack_zField packing18_onto (by decide) fun k => v.getD k 0
    rw [show 9 * (N / 4) = 576 from by decide, hself] at hpack
    exact hpack
  · rw [hbits]
    rw [hv, hbytes] at hself
    have hpack := pack_unpack_zField packing20_onto (by decide) fun k => v.getD k 0
    rw [show 5 * (N / 2) = 640 from by decide, hself] at hpack
    exact hpack

/-- Public keys and responses, in both directions.  Coefficients are `u32`; the decoded ones are
the field elements below `q`. -/
theorem codecs_round_trip :
    (∀ (rho : Bytes) (t1 : Nat → Nat → Nat), rho.length = 32 →
      (∀ r < K, ∀ i < N, t1 r i < 2 ^ 10) →
      ∃ t1', pkDecode params (pkEncode K rho t1) = .ok (rho, t1') ∧
        ∀ r < K, ∀ i < N, t1' r i = t1 r i) ∧
    (∀ pk : Bytes, pk.length = params.publicKeySize →
      ∃ rho t1, pkDecode params pk = .ok (rho, t1) ∧ pkEncode K rho t1 = pk) ∧
    (∀ z : Poly, (∀ i < N, z.coeff i < 2 ^ 32) →
      (∀ i < N, -(params.gamma1 : Int) < fieldCenteredMod (z.coeff i) ∧
        fieldCenteredMod (z.coeff i) ≤ params.gamma1) →
      bitunpack (fun k => (bitpack z params.gamma1Bits).getD k 0) params.gamma1Bits =
          z.map (· % Q) ∧
        (z.Reduced →
          bitunpack (fun k => (bitpack z params.gamma1Bits).getD k 0) params.gamma1Bits = z)) ∧
    ∀ v : Bytes, v.length = params.polyzBytes →
      bitpack (bitunpack (fun k => v.getD k 0) params.gamma1Bits) params.gamma1Bits = v := by
  refine ⟨fun rho t1 hrho ht1 => ?_, fun pk hpk => ?_, fun z hz hcentered => ?_,
    fun v hv => bitpack_bitunpack params hv⟩
  · have hlength : (pkEncode K rho t1).length = params.publicKeySize := by
      rw [length_pkEncode, hrho, params.publicKeySize_eq, Nat.mul_comm]
    refine ⟨pkRow (pkEncode K rho t1), ?_, fun r hr i hi => pkRow_pkEncode hrho ht1 hr hi⟩
    rw [pkDecode_eq params hlength, pkEncode, ← hrho, List.take_left]
  · exact ⟨_, _, pkDecode_eq params hpk, pkEncode_pkRow (hpk.trans params.publicKeySize_eq)⟩
  · have hmap := bitunpack_bitpack params hz (fun i hi => (hcentered i hi).1)
      fun i hi => (hcentered i hi).2
    exact ⟨hmap, fun hreduced => hmap.trans (PolyIn.map_mod_eq hreduced)⟩

end Params

theorem codecs_round_trip_sevens :
    bitpack (bitunpack (fun k => (List.replicate 576 (7 : UInt8)).getD k 0) 17) 17 =
      List.replicate 576 7 :=
  (codecs_round_trip PARAMS_44).2.2.2 (List.replicate 576 7) List.length_replicate

end Stdx.MlDsa
