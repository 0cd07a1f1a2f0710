import Stdx.PCurves.P256
import Stdx.PCurves.Rfc6979

/-!
# The nonce sequence of RFC 6979

Section 3.2, step h, as a relation between a state, the first valid candidate
and the state right after it, and how far `generate` follows it.
-/

namespace Stdx.PCurves

open Stdx.Foundation
open Stdx.BigNumber

/-- Step h.2: `V = HMAC_K(V)` and append, until `T` has `FIELD_BITS` bits. -/
def rfcT (C : Curve) (k v : C.DigestBytes) (t : Bytes) : Bytes × C.DigestBytes :=
  if 8 * t.length < C.FIELD_BITS then
    let v' := C.hmac k.octets v.octets
    rfcT C k v' (t ++ v'.octets)
  else (t, v)
termination_by C.FIELD_BITS - 8 * t.length
decreasing_by
  have := C.digestBytes_pos
  simp only [List.length_append, (C.hmac k.octets v.octets).length_eq]
  omega

def bits2int (qlen : Nat) (t : Bytes) : Nat :=
  if qlen ≤ 8 * t.length then beValue t / 2 ^ (8 * t.length - qlen) else beValue t

/-- Step h.3: the number, when it lies in `[1, n - 1]`. -/
def rfcNonce (C : Curve) (t : Bytes) : Option Nat :=
  if 1 ≤ bits2int C.FIELD_BITS t ∧
      bits2int C.FIELD_BITS t < C.MODULUS_N.value then
    some (bits2int C.FIELD_BITS t)
  else none

/-- The first valid candidate from `s` and the state right after it, where the
first `skips` invalid candidates are not followed by an update of `K` and `V`.
The RFC has `skips = 0`. -/
inductive FirstValid (C : Curve) : Nat → Rfc6979 C → Nat → Rfc6979 C → Prop
  | accept {skips s x} (h : rfcNonce C (rfcT C s.k s.v []).1 = some x) :
      FirstValid C skips s x ⟨s.k, (rfcT C s.k s.v []).2⟩
  | retry {s x r} (h : rfcNonce C (rfcT C s.k s.v []).1 = none)
      (next : FirstValid C 0 (Rfc6979.retry ⟨s.k, (rfcT C s.k s.v []).2⟩) x r) :
      FirstValid C 0 s x r
  | skip {skips s x r} (h : rfcNonce C (rfcT C s.k s.v []).1 = none)
      (next : FirstValid C skips ⟨s.k, (rfcT C s.k s.v []).2⟩ x r) :
      FirstValid C (skips + 1) s x r

/-! ## The model's parts -/

section Select

theorem ctSelectByte_eq (a b : UInt8) (choice : Bool) :
    ctSelectByte a b choice = if choice then a else b := by
  apply octet_ext
  intro i hi
  cases choice <;> simp [ctSelectByte]

theorem zipWith_ctSelectByte {a b : Bytes} (h : a.length = b.length)
    (choice : Bool) :
    List.zipWith (fun x y => ctSelectByte x y choice) a b =
      if choice then a else b := by
  induction a generalizing b with
  | nil =>
    cases b with
    | nil => simp
    | cons y ys => simp at h
  | cons x xs ih =>
    cases b with
    | nil => simp at h
    | cons y ys =>
      rw [List.zipWith_cons_cons, ih (by simpa using h), ctSelectByte_eq]
      cases choice <;> rfl

theorem ctSelectBytes_eq {N : Nat} (a b : FixedBytes N) (choice : Bool) :
    ctSelectBytes a b choice = if choice then a else b := by
  apply FixedBytes.ext
  have h := zipWith_ctSelectByte (a.length_eq.trans b.length_eq.symm) choice
  cases choice <;> exact h

end Select

section Candidates

variable {C : Curve}

theorem nonceBlocks_spec (C : Curve) (i : Nat) :
    8 * (i * C.DIGEST_BYTES) < C.FIELD_BITS ↔ i < C.nonceBlocks := by
  have hpos := C.digestBytes_pos
  rw [Curve.nonceBlocks, Nat.lt_div_iff_mul_lt (by omega)]
  have hcomm : i * (C.DIGEST_BYTES * 8) = 8 * (i * C.DIGEST_BYTES) := by ring
  rw [hcomm]
  omega

/-- The fixed number of blocks is the number the RFC's loop takes. -/
theorem buildT_eq (s : Rfc6979 C) :
    s.buildT = ((rfcT C s.k s.v []).1, ⟨s.k, (rfcT C s.k s.v []).2⟩) := by
  have hrest : ∀ (n i : Nat) (t : Bytes) (v : C.DigestBytes),
      i + n = C.nonceBlocks → t.length = i * C.DIGEST_BYTES →
      forRange i n (fun _ (p : Bytes × Rfc6979 C) =>
        (p.1 ++ (C.hmac p.2.k.octets p.2.v.octets).octets,
          ⟨p.2.k, C.hmac p.2.k.octets p.2.v.octets⟩)) (t, ⟨s.k, v⟩) =
        ((rfcT C s.k v t).1, ⟨s.k, (rfcT C s.k v t).2⟩) := by
    intro n
    induction n with
    | zero =>
      intro i t v hi ht
      have hdone : ¬ 8 * t.length < C.FIELD_BITS := by
        rw [ht, nonceBlocks_spec]
        omega
      rw [rfcT, if_neg hdone, forRange_zero]
    | succ n ih =>
      intro i t v hi ht
      have hmore : 8 * t.length < C.FIELD_BITS := by
        rw [ht, nonceBlocks_spec]
        omega
      rw [rfcT, if_pos hmore, forRange_succ]
      apply ih
      · omega
      · rw [List.length_append, ht, (C.hmac s.k.octets v.octets).length_eq]
        ring
  exact hrest C.nonceBlocks 0 [] s.v (by omega) (by simp)

theorem rfcT_length (s : Rfc6979 C) :
    (rfcT C s.k s.v []).1.length = C.nonceBlocks * C.DIGEST_BYTES := by
  have hlength := forRange_rule (l := 0) (n := C.nonceBlocks)
    (f := fun _ (p : Bytes × Rfc6979 C) =>
      (p.1 ++ (C.hmac p.2.k.octets p.2.v.octets).octets,
        (⟨p.2.k, C.hmac p.2.k.octets p.2.v.octets⟩ : Rfc6979 C)))
    (I := fun i p => p.1.length = i * C.DIGEST_BYTES)
    (fun i p _ _ h => by
      simp only [List.length_append, h,
        (C.hmac p.2.k.octets p.2.v.octets).length_eq]
      ring)
    (s := ([], s)) (by simp)
  have hbuild := congrArg (fun p => p.1.length) (buildT_eq s)
  simp only [Nat.zero_add] at hlength
  exact hbuild.symm.trans hlength

theorem source_bit_toNat {t : Bytes} {qlen j : Nat} (hq : qlen ≤ 8 * t.length)
    (hj : j < qlen) :
    ((t.getD ((qlen - 1 - j) / 8) 0 >>>
        UInt8.ofNat (7 - (qlen - 1 - j) % 8)) &&& 1).toNat =
      beValue t / 2 ^ (8 * t.length - qlen) / 2 ^ j % 2 := by
  have hget := getD_toNat_beValue (o := t)
    (i := t.length - 1 - (qlen - 1 - j) / 8) (by omega)
  rw [show t.length - 1 - (t.length - 1 - (qlen - 1 - j) / 8) =
    (qlen - 1 - j) / 8 by omega] at hget
  have hshift : (UInt8.ofNat (7 - (qlen - 1 - j) % 8)).toNat % 8 =
      7 - (qlen - 1 - j) % 8 := by
    rw [UInt8.toNat_ofNat']
    omega
  have hpow : (256 : Nat) ^ (t.length - 1 - (qlen - 1 - j) / 8) =
      2 ^ (8 * (t.length - 1 - (qlen - 1 - j) / 8)) := by
    rw [show (256 : Nat) = 2 ^ 8 by decide, ← pow_mul]
  rw [UInt8.toNat_and, UInt8.toNat_shiftRight, hshift, hget, hpow,
    UInt8.toNat_one, Nat.and_one_is_mod, Nat.shiftRight_eq_div_pow,
    Nat.div_div_eq_div_mul (beValue t), ← pow_add, show (256 : Nat) = 2 ^ 8 by decide,
    ← Nat.toNat_testBit, ← Nat.toNat_testBit, Nat.testBit_mod_two_pow,
    Nat.testBit_div_two_pow]
  have hlt : 7 - (qlen - 1 - j) % 8 < 8 := by omega
  simp only [hlt, decide_true, Bool.true_and]
  congr 2
  omega

theorem bits2intStep_value {t out : Bytes} {j : Nat}
    (hq : C.FIELD_BITS ≤ 8 * t.length) (hj : j < C.FIELD_BITS)
    (hout : out.length = C.FIELD_BYTES)
    (hvalue : beValue out =
      beValue t / 2 ^ (8 * t.length - C.FIELD_BITS) % 2 ^ j) :
    beValue (C.bits2intStep t j out) =
      beValue t / 2 ^ (8 * t.length - C.FIELD_BITS) % 2 ^ (j + 1) := by
  have hbytes := C.fieldBytes_eq
  have hbit := source_bit_toNat hq hj
  have hbyte : j / 8 < out.length := by omega
  unfold Curve.bits2intStep
  simp only
  generalize hb : (t.getD ((C.FIELD_BITS - 1 - j) / 8) 0 >>>
    UInt8.ofNat (7 - (C.FIELD_BITS - 1 - j) % 8)) &&& 1 = bit at hbit ⊢
  have hle : bit.toNat ≤ 1 := by
    rw [hbit]
    omega
  have hset := beValue_set hbyte
    (out.getD (out.length - 1 - j / 8) 0 ||| (bit <<< UInt8.ofNat (j % 8)))
  have hold := getD_toNat_beValue hbyte
  rw [hout] at hset hold
  have hsplit : 2 ^ j = 256 ^ (j / 8) * 2 ^ (j % 8) := by
    rw [show (256 : Nat) = 2 ^ 8 by decide, ← pow_mul, ← pow_add]
    congr 1
    omega
  have hlow : (out.getD (C.FIELD_BYTES - 1 - j / 8) 0).toNat < 2 ^ (j % 8) := by
    have hlt : beValue out < 256 ^ (j / 8) * 2 ^ (j % 8) := by
      rw [hvalue, ← hsplit]
      exact Nat.mod_lt _ (by positivity)
    rw [hold]
    exact (Nat.mod_le _ _).trans_lt (Nat.div_lt_of_lt_mul hlt)
  have hshift : (bit <<< UInt8.ofNat (j % 8)).toNat = 2 ^ (j % 8) * bit.toNat := by
    have hmod : (UInt8.ofNat (j % 8)).toNat % 8 = j % 8 := by
      rw [UInt8.toNat_ofNat']
      omega
    have hpow : 2 ^ (j % 8) ≤ 2 ^ 7 := Nat.pow_le_pow_right (by omega) (by omega)
    rw [UInt8.toNat_shiftLeft, hmod, Nat.shiftLeft_eq, Nat.mul_comm,
      Nat.mod_eq_of_lt]
    calc 2 ^ (j % 8) * bit.toNat ≤ 2 ^ 7 * 1 := Nat.mul_le_mul hpow hle
      _ < 2 ^ 8 := by decide
  have hor : (out.getD (C.FIELD_BYTES - 1 - j / 8) 0 |||
      (bit <<< UInt8.ofNat (j % 8))).toNat =
      (out.getD (C.FIELD_BYTES - 1 - j / 8) 0).toNat + 2 ^ (j % 8) * bit.toNat := by
    rw [UInt8.toNat_or, hshift, Nat.or_comm,
      ← Nat.two_pow_add_eq_or_of_lt hlow, Nat.add_comm]
  rw [hor, Nat.mul_add, ← Nat.mul_assoc, ← hsplit, hvalue] at hset
  rw [Nat.mod_pow_succ, ← hbit]
  omega

theorem bits2intOctets_value (t : Bytes) :
    beValue (C.bits2intOctets t).octets = bits2int C.FIELD_BITS t := by
  have hzero : ∀ n, beValue (List.replicate n 0) = 0 := by
    intro n
    induction n with
    | zero => rfl
    | succ n ih => rw [List.replicate_succ, beValue_cons, ih]; simp
  have hbytes := C.fieldBytes_eq
  unfold Curve.bits2intOctets bits2int
  by_cases h : t.length * 8 ≥ C.FIELD_BITS
  · rw [dif_pos h, if_pos (by omega)]
    have hrun := forRange_rule (l := 0) (n := C.FIELD_BITS)
      (f := C.bits2intStep t)
      (I := fun j (out : Bytes) => out.length = C.FIELD_BYTES ∧
        beValue out = beValue t / 2 ^ (8 * t.length - C.FIELD_BITS) % 2 ^ j)
      (fun j out _ hj hinv =>
        ⟨by simpa [Curve.bits2intStep] using hinv.1,
          bits2intStep_value (by omega) (by omega) hinv.1 hinv.2⟩)
      (s := List.replicate C.FIELD_BYTES 0) ⟨by simp, by simp [hzero, Nat.mod_one]⟩
    rw [Nat.zero_add] at hrun
    refine hrun.2.trans (Nat.mod_eq_of_lt ?_)
    rw [Nat.div_lt_iff_lt_mul (by positivity), ← pow_add,
      show C.FIELD_BITS + (8 * t.length - C.FIELD_BITS) = 8 * t.length by omega,
      pow_mul]
    exact beValue_lt t
  · rw [dif_neg h, if_neg (by omega)]
    simp [beValue_append, hzero]

theorem scalarFromNonce_value (t : Bytes) :
    (C.scalarFromNonce t).map Uint.value = rfcNonce C t := by
  have hvalue : (readBe (C.bits2intOctets t).octets : C.U).value =
      bits2int C.FIELD_BITS t := by
    rw [readBe_value (by rw [(C.bits2intOctets t).length_eq]; exact C.fieldBytes_le),
      bits2intOctets_value]
  simp only [Curve.scalarFromNonce, rfcNonce, Uint.isZero_eq, Uint.ctGe_eq, hvalue]
  by_cases h : 1 ≤ bits2int C.FIELD_BITS t ∧
      bits2int C.FIELD_BITS t < C.MODULUS_N.value
  · have hgood : ¬ (decide (bits2int C.FIELD_BITS t = 0) ||
        decide (C.MODULUS_N.value ≤ bits2int C.FIELD_BITS t)) = true := by
      simp
      omega
    rw [if_pos h, if_neg hgood, Option.map_some, hvalue]
  · have hbad : (decide (bits2int C.FIELD_BITS t = 0) ||
        decide (C.MODULUS_N.value ≤ bits2int C.FIELD_BITS t)) = true := by
      simp
      omega
    rw [if_neg h, if_pos hbad, Option.map_none]

theorem scalarFromNonce_none {t : Bytes} :
    C.scalarFromNonce t = none ↔ rfcNonce C t = none := by
  rw [← scalarFromNonce_value, Option.map_eq_none_iff]

end Candidates

/-! ## What `generate` computes -/

section Generate

variable {C : Curve}

theorem fallback_iff (s : Rfc6979 C) (x : Nat) (r : Rfc6979 C) :
    (∃ fuel value, Rfc6979.fallback fuel s = some (value, r) ∧ value.value = x) ↔
      FirstValid C 0 s x r := by
  constructor
  · rintro ⟨fuel, value, hrun, rfl⟩
    induction fuel generalizing s with
    | zero => simp [Rfc6979.fallback] at hrun
    | succ fuel ih =>
      rw [Rfc6979.fallback, buildT_eq] at hrun
      simp only at hrun
      have hnonce := scalarFromNonce_value (C := C) (rfcT C s.k s.v []).1
      cases hscalar : C.scalarFromNonce (rfcT C s.k s.v []).1 with
      | some found =>
        rw [hscalar] at hrun hnonce
        simp only [Option.some.injEq, Prod.mk.injEq] at hrun
        obtain ⟨rfl, rfl⟩ := hrun
        exact .accept hnonce.symm
      | none =>
        rw [hscalar] at hrun hnonce
        exact .retry hnonce.symm (ih _ hrun)
  · intro h
    generalize hskips : 0 = skips at h
    induction h with
    | @accept skips s x h =>
      rw [← scalarFromNonce_value] at h
      obtain ⟨value, hvalue, rfl⟩ := Option.map_eq_some_iff.mp h
      refine ⟨1, value, ?_, rfl⟩
      rw [Rfc6979.fallback, buildT_eq]
      simp only [hvalue]
    | @retry s x r h next ih =>
      obtain ⟨fuel, value, hrun, hvalue⟩ := ih rfl
      refine ⟨fuel + 1, value, ?_, hvalue⟩
      rw [Rfc6979.fallback, buildT_eq]
      simp only [scalarFromNonce_none.mpr h]
      exact hrun
    | skip h next ih => omega

def afterCandidate (s : Rfc6979 C) : Rfc6979 C := ⟨s.k, (rfcT C s.k s.v []).2⟩

theorem searchRound_valid {g : Rfc6979.Search C} {value : C.U}
    (hfound : g.found = false)
    (hlength : g.candidate.length = C.nonceBlocks * C.DIGEST_BYTES)
    (h : C.scalarFromNonce (rfcT C g.drbg.k g.drbg.v []).1 = some value) :
    Rfc6979.searchRound g =
      ⟨(afterCandidate g.drbg).retry, (rfcT C g.drbg.k g.drbg.v []).1,
        (afterCandidate g.drbg).k, (afterCandidate g.drbg).v, true⟩ := by
  have hsame := (rfcT_length g.drbg).trans hlength.symm
  simp only [Rfc6979.searchRound, buildT_eq, h, hfound, Option.isSome_some,
    Bool.not_false, Bool.and_self, Bool.not_true, Bool.or_true,
    zipWith_ctSelectByte hsame, ctSelectBytes_eq]
  rfl

/-- An invalid candidate leaves everything but the state as it was, and the
state without the update of step h.3. -/
theorem searchRound_invalid {g : Rfc6979.Search C} (hfound : g.found = false)
    (hlength : g.candidate.length = C.nonceBlocks * C.DIGEST_BYTES)
    (h : C.scalarFromNonce (rfcT C g.drbg.k g.drbg.v []).1 = none) :
    Rfc6979.searchRound g = { g with drbg := afterCandidate g.drbg } := by
  have hsame := (rfcT_length g.drbg).trans hlength.symm
  simp only [Rfc6979.searchRound, buildT_eq, h, hfound, Option.isSome_none,
    Bool.not_false, Bool.false_and, Bool.or_self,
    zipWith_ctSelectByte hsame, ctSelectBytes_eq]
  rfl

theorem searchRound_found {g : Rfc6979.Search C} (hfound : g.found = true)
    (hlength : g.candidate.length = C.nonceBlocks * C.DIGEST_BYTES) :
    (Rfc6979.searchRound g).candidate = g.candidate ∧
      (Rfc6979.searchRound g).candidateK = g.candidateK ∧
      (Rfc6979.searchRound g).candidateV = g.candidateV ∧
      (Rfc6979.searchRound g).found = true := by
  have hsame := (rfcT_length g.drbg).trans hlength.symm
  simp only [Rfc6979.searchRound, buildT_eq, hfound, Bool.not_true,
    Bool.and_false, Bool.true_or, zipWith_ctSelectByte hsame, ctSelectBytes_eq]
  simp

theorem searchRounds_found {g : Rfc6979.Search C} (hfound : g.found = true)
    (hlength : g.candidate.length = C.nonceBlocks * C.DIGEST_BYTES)
    (l n : Nat) :
    let g' := forRange l n (fun _ => Rfc6979.searchRound) g
    g'.candidate = g.candidate ∧ g'.candidateK = g.candidateK ∧
      g'.candidateV = g.candidateV ∧ g'.found = true :=
  forRange_rule (f := fun _ => Rfc6979.searchRound)
    (I := fun _ g' => g'.candidate = g.candidate ∧
      g'.candidateK = g.candidateK ∧ g'.candidateV = g.candidateV ∧
      g'.found = true)
    (fun i g' _ _ ⟨hc, hk, hv, hf⟩ => by
      obtain ⟨hc', hk', hv', hf'⟩ := searchRound_found hf (by rw [hc, hlength])
      exact ⟨hc'.trans hc, hk'.trans hk, hv'.trans hv, hf'⟩)
    ⟨rfl, rfl, rfl, hfound⟩

theorem finish_rounds_iff (count : Nat) {g : Rfc6979.Search C}
    (hfound : g.found = false)
    (hlength : g.candidate.length = C.nonceBlocks * C.DIGEST_BYTES)
    (lo x : Nat) (r : Rfc6979 C) :
    (∃ fuel value, Rfc6979.finish fuel
        (forRange lo count (fun _ => Rfc6979.searchRound) g) = some (value, r) ∧
      value.value = x) ↔ FirstValid C count g.drbg x r := by
  induction count generalizing g lo with
  | zero =>
    simp only [forRange_zero, Rfc6979.finish, hfound, Bool.false_eq_true, if_false]
    exact fallback_iff g.drbg x r
  | succ count ih =>
    rw [forRange_succ]
    have hnonce := scalarFromNonce_value (C := C)
      (rfcT C g.drbg.k g.drbg.v []).1
    cases hscalar : C.scalarFromNonce (rfcT C g.drbg.k g.drbg.v []).1 with
    | some first =>
      rw [hscalar, Option.map_some] at hnonce
      have hround := searchRound_valid hfound hlength hscalar
      obtain ⟨hc, hk, hv, hf⟩ := searchRounds_found (l := lo + 1)
        (n := count) (g := Rfc6979.searchRound g) (by rw [hround])
        (by rw [hround]; exact rfcT_length g.drbg)
      have hfinish : ∀ fuel, Rfc6979.finish fuel
          (forRange (lo + 1) count (fun _ => Rfc6979.searchRound)
            (Rfc6979.searchRound g)) =
          some (first, afterCandidate g.drbg) := by
        intro fuel
        simp only [Rfc6979.finish, hf, if_true, hc, hk, hv]
        rw [hround]
        simp only [hscalar]
      simp only [hfinish]
      constructor
      · rintro ⟨-, value, heq, rfl⟩
        obtain ⟨rfl, rfl⟩ := Prod.mk.inj (Option.some.inj heq)
        exact .accept hnonce.symm
      · intro hfirst
        cases hfirst with
        | accept haccept =>
          obtain rfl := Option.some.inj (hnonce.trans haccept)
          exact ⟨0, first, rfl, rfl⟩
        | skip hskip next => simp [← hnonce] at hskip
    | none =>
      rw [hscalar, Option.map_none] at hnonce
      rw [searchRound_invalid hfound hlength hscalar,
        ih (g := { g with drbg := afterCandidate g.drbg }) hfound hlength]
      constructor
      · exact fun hnext => .skip hnonce.symm hnext
      · intro hfirst
        cases hfirst with
        | accept haccept => simp [← hnonce] at haccept
        | skip hskip next => exact next

theorem generate_iff (s : Rfc6979 C) (x : Nat) (r : Rfc6979 C) :
    (∃ fuel value, s.generate fuel = some (value, r) ∧ value.value = x) ↔
      FirstValid C 3 s x r :=
  finish_rounds_iff 3 (g := ⟨s, List.replicate (C.nonceBlocks * C.DIGEST_BYTES) 0,
    FixedBytes.zeroed _, FixedBytes.zeroed _, false⟩) rfl (by simp) 0 x r

def FollowsRfc (s : Rfc6979 C) : Prop :=
  ∀ x r, (∃ fuel value, s.generate fuel = some (value, r) ∧ value.value = x) ↔
    FirstValid C 0 s x r

/-- A valid first candidate keeps clear of the retries. -/
theorem generate_followsRfc (s : Rfc6979 C)
    (hfirst : (rfcNonce C (rfcT C s.k s.v []).1).isSome) : FollowsRfc s := by
  obtain ⟨first, hnonce⟩ := Option.isSome_iff_exists.mp hfirst
  intro x r
  rw [generate_iff]
  constructor
  · intro h
    cases h with
    | accept haccept => exact .accept haccept
    | skip hskip next => simp [hnonce] at hskip
  · intro h
    cases h with
    | accept haccept => exact .accept haccept
    | retry hretry next => simp [hnonce] at hretry

theorem firstValid_zero_cases {s : Rfc6979 C} {x : Nat} {r : Rfc6979 C}
    (h : FirstValid C 0 s x r) :
    rfcNonce C (rfcT C s.k s.v []).1 = some x ∨
      rfcNonce C (rfcT C s.k s.v []).1 = none ∧
        FirstValid C 0 (afterCandidate s).retry x r := by
  cases h with
  | accept haccept => exact .inl haccept
  | retry hnone next => exact .inr ⟨hnone, next⟩

end Generate

/-! ## An HMAC on which the two sequences part -/

/-- The first block over the zero key is all ones, out of range for P-256; the
block after it differs from the one after the update of the key. -/
def partingHmac (key data : Bytes) : FixedBytes 32 :=
  if data.length = 33 then ⟨List.replicate 32 1, by simp⟩
  else if key.headD 0 ≠ 0 then ⟨List.replicate 32 3, by simp⟩
  else if data.headD 0 = 0xff then ⟨List.replicate 32 2, by simp⟩
  else ⟨List.replicate 32 0xff, by simp⟩

section P256

variable (debug : Bool) (hash : Bytes → FixedBytes 32) (hmac : Bytes → Bytes → FixedBytes 32)

theorem rfcT_p256 (k v : FixedBytes 32) :
    rfcT (P256.curve debug hash hmac) k v [] =
      ((hmac k.octets v.octets).octets, hmac k.octets v.octets) := by
  have hshort : 8 * ([] : Bytes).length < 256 := by decide
  have hfull : ¬ 8 * ([] ++ (hmac k.octets v.octets).octets).length < 256 := by
    rw [List.nil_append, (hmac k.octets v.octets).length_eq]
    decide
  have hblock := rfcT.eq_def (P256.curve debug hash hmac) k (hmac k.octets v.octets)
    ([] ++ (hmac k.octets v.octets).octets)
  have hrun := rfcT.eq_def (P256.curve debug hash hmac) k v []
  exact hrun.trans ((if_pos hshort).trans (hblock.trans (if_neg hfull)))

theorem rfcNonce_p256 (t : Bytes) :
    rfcNonce (P256.curve debug hash hmac) t =
      if 1 ≤ bits2int 256 t ∧ bits2int 256 t < P256.MODULUS_N.value then some (bits2int 256 t)
      else none := rfl

end P256

def repeated (octet : UInt8) : FixedBytes 32 := ⟨List.replicate 32 octet, by simp⟩

theorem generate_followsRfc_repeated :
    FollowsRfc (C := P256.curve false (fun _ => FixedBytes.zeroed 32) (fun _ _ => repeated 2))
      ⟨FixedBytes.zeroed 32, FixedBytes.zeroed 32⟩ := by
  have hvalid : 1 ≤ bits2int 256 (repeated 2).octets ∧
      bits2int 256 (repeated 2).octets < P256.MODULUS_N.value := by decide
  apply generate_followsRfc
  rw [rfcT_p256, rfcNonce_p256, if_pos hvalid]
  rfl

theorem generate_not_followsRfc :
    ¬ FollowsRfc (C := P256.curve false (fun _ => FixedBytes.zeroed 32) partingHmac)
      ⟨FixedBytes.zeroed 32, FixedBytes.zeroed 32⟩ := by
  intro h
  let C := P256.curve false (fun _ => FixedBytes.zeroed 32) partingHmac
  let s : Rfc6979 C := ⟨FixedBytes.zeroed 32, FixedBytes.zeroed 32⟩
  let second : Rfc6979 C := ⟨FixedBytes.zeroed 32, repeated 0xff⟩
  let retried : Rfc6979 C := ⟨repeated 1, repeated 3⟩
  have hones : ¬ (1 ≤ bits2int 256 (repeated 0xff).octets ∧
      bits2int 256 (repeated 0xff).octets < P256.MODULUS_N.value) := by decide
  have hnone : rfcNonce C (rfcT C s.k s.v []).1 = none :=
    (congrArg (rfcNonce C) (congrArg Prod.fst (rfcT_p256 ..))).trans
      ((rfcNonce_p256 ..).trans (if_neg hones))
  -- the code goes on from the same key
  have htwos : 1 ≤ bits2int 256 (repeated 2).octets ∧
      bits2int 256 (repeated 2).octets < P256.MODULUS_N.value := by decide
  have hsecond : rfcNonce C (rfcT C second.k second.v []).1 =
      some (bits2int 256 (repeated 2).octets) :=
    (congrArg (rfcNonce C) (congrArg Prod.fst (rfcT_p256 ..))).trans
      ((rfcNonce_p256 ..).trans (if_pos htwos))
  -- the RFC changes the key first
  have hthrees : 1 ≤ bits2int 256 (repeated 3).octets ∧
      bits2int 256 (repeated 3).octets < P256.MODULUS_N.value := by decide
  have hretried : rfcNonce C (rfcT C retried.k retried.v []).1 =
      some (bits2int 256 (repeated 3).octets) :=
    (congrArg (rfcNonce C) (congrArg Prod.fst (rfcT_p256 ..))).trans
      ((rfcNonce_p256 ..).trans (if_pos hthrees))
  have hafter : afterCandidate s = second :=
    congrArg (Rfc6979.mk s.k) (congrArg Prod.snd (rfcT_p256 ..))
  have hretry : second.retry = retried := rfl
  have hcode : FirstValid C 3 s (bits2int 256 (repeated 2).octets) (afterCandidate second) := by
    apply FirstValid.skip hnone
    change FirstValid C 2 (afterCandidate s) _ _
    rw [hafter]
    exact .accept hsecond
  have hrfc := (h _ _).mp ((generate_iff ..).mpr hcode)
  rcases firstValid_zero_cases hrfc with hfirst | ⟨-, hnext⟩
  · exact absurd (hnone.symm.trans hfirst) (by simp)
  · rw [hafter, hretry] at hnext
    rcases firstValid_zero_cases hnext with hlater | ⟨hend, -⟩
    · have heq := Option.some.inj (hretried.symm.trans hlater)
      exact absurd heq (by decide)
    · exact absurd (hretried.symm.trans hend) (by simp)

end Stdx.PCurves
