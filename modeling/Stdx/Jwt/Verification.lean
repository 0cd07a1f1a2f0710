import Stdx.Jwt.Token

/-!
# What `parse_and_verify` accepts

The signature part accepts exactly the three-part tokens with a canonical signature the
key accepts.  The claims part is exact while the two clock limits stay in the range of a
`u64`.
-/

namespace Stdx.Jwt

open Stdx.Foundation Stdx.Base64

/-! ## The three parts -/

theorem not_mem_of_mem_splitOn (token part : Bytes) (h : part ∈ token.splitOn DOT) :
    DOT ∉ part := by
  induction token generalizing part with
  | nil =>
    obtain rfl : part = [] := by simpa using h
    simp
  | cons octet token ih =>
    rw [List.splitOn_cons_eq_if_modifyHead] at h
    have hne := List.splitOn_ne_nil DOT token
    cases hparts : token.splitOn DOT with
    | nil => exact absurd hparts hne
    | cons first parts =>
      rw [hparts] at h ih
      by_cases hdot : octet = DOT
      · rw [if_pos (by simpa using hdot)] at h
        obtain rfl | h := List.mem_cons.mp h
        · simp
        · exact ih part h
      · rw [if_neg (by simpa using hdot), List.modifyHead_cons] at h
        obtain rfl | h := List.mem_cons.mp h
        · have hfirst := ih first List.mem_cons_self
          simp only [List.mem_cons, not_or]
          exact ⟨fun h => hdot h.symm, hfirst⟩
        · exact ih part (List.mem_cons_of_mem _ h)

theorem splitOn_eq_three {token h c s : Bytes} :
    token.splitOn DOT = [h, c, s] ↔
      token = h ++ [DOT] ++ c ++ [DOT] ++ s ∧ DOT ∉ h ∧ DOT ∉ c ∧ DOT ∉ s := by
  constructor
  · intro hsplit
    have htoken : [DOT].intercalate (token.splitOn DOT) = token := List.intercalate_splitOn DOT
    rw [hsplit] at htoken
    have hparts : ∀ part ∈ token.splitOn DOT, DOT ∉ part := by
      intro part hpart
      exact not_mem_of_mem_splitOn token part hpart
    rw [hsplit] at hparts
    refine ⟨?_, hparts h (by simp), hparts c (by simp), hparts s (by simp)⟩
    rw [← htoken]
    simp [List.intercalate]
  · rintro ⟨rfl, hh, hc, hs⟩
    have hjoin : [DOT].intercalate [h, c, s] = h ++ [DOT] ++ c ++ [DOT] ++ s := by
      simp [List.intercalate]
    rw [← hjoin]
    refine List.splitOn_intercalate DOT ?_ (by simp)
    intro part hpart
    simp only [List.mem_cons, List.not_mem_nil, or_false] at hpart
    obtain rfl | rfl | rfl := hpart
    · exact hh
    · exact hc
    · exact hs

/-! ## The signature -/

section

variable (unit : VectorUnit) (T : Target) {C : Type} (serde : Serde C)

/-- A token, as long as a string can be. -/
structure Token where
  octets : Bytes
  length_lt : octets.length < 2 ^ (T.usizeBits - 1)

structure Signed (key : Verifier) (token claimsJson : Bytes) : Prop where
  parts : ∃ h c s signature, token = h ++ [DOT] ++ c ++ [DOT] ++ s ∧
    (DOT ∉ h ∧ DOT ∉ c ∧ DOT ∉ s) ∧
    s = encodeText .urlNoPadding signature ∧ signature.length ≤ SIGNATURE_MAX_SIZE ∧
    key.verify (h ++ [DOT] ++ c) signature = .ok () ∧
    c = encodeText .urlNoPadding claimsJson

/-- What a build reads of a token whose signature the key accepts. -/
structure Received (key : Verifier) (token claimsJson : Bytes) : Prop where
  parts : ∃ h c s signature, token = h ++ [DOT] ++ c ++ [DOT] ++ s ∧
    (DOT ∉ h ∧ DOT ∉ c ∧ DOT ∉ s) ∧
    Reads unit .urlNoPadding s signature ∧ signature.length ≤ SIGNATURE_MAX_SIZE ∧
    key.verify (h ++ [DOT] ++ c) signature = .ok () ∧
    Reads unit .urlNoPadding c claimsJson

def VerifyOptions.HasClock (options : VerifyOptions) : Prop :=
  options.exp = true ∨ options.nbf = true → options.clock.isSome = true

theorem VerifyOptions.hasClock_iff (options : VerifyOptions) :
    ((options.exp || options.nbf) && options.clock.isNone) = false ↔ options.HasClock := by
  unfold HasClock
  cases options.exp <;> cases options.nbf <;> cases options.clock <;> simp

theorem Token.lt_usize (token : Token T) : token.octets.length < 2 ^ T.usizeBits :=
  lt_of_lt_of_le token.length_lt (Nat.pow_le_pow_right (by omega) (by omega))

theorem SIGNATURE_MAX_SIZE_lt : SIGNATURE_MAX_SIZE < 2 ^ T.usizeBits :=
  lt_of_lt_of_le (by decide : SIGNATURE_MAX_SIZE < 2 ^ 32)
    (Nat.pow_le_pow_right (by omega) T.wide)

theorem take_signedMessage (h c s : Bytes) :
    (h ++ [DOT] ++ c ++ [DOT] ++ s).take (h.length + 1 + c.length) = h ++ [DOT] ++ c := by
  have hlength : (h ++ [DOT] ++ c).length = h.length + 1 + c.length := by
    simp only [List.length_append, List.length_singleton]
  rw [List.append_assoc (h ++ [DOT] ++ c), ← hlength, List.take_left]

theorem urlNoPadding_unpadded : Alphabet.urlNoPadding.isPadded = false := rfl

theorem verifySignature_ok_iff (key : Verifier) (header : Header) (token : Token T)
    (options : VerifyOptions) (claimsJson : Bytes) :
    verifySignature unit T key header token.octets options = .ok claimsJson ↔
      options.HasClock ∧ header.alg = key.algorithm ∧
        Received unit key token.octets claimsJson := by
  have hlength := token.lt_usize
  constructor
  · intro hok
    unfold verifySignature at hok
    split at hok
    · cases hok
    next hclock =>
    split at hok
    · cases hok
    next halg =>
    split at hok
    · next h c s hsplit =>
      obtain ⟨htoken, hdots⟩ := splitOn_eq_three.mp hsplit
      split at hok
      · cases hok
      next size buffer hdecode =>
      obtain ⟨hreads, hroom, hsize⟩ := decodeInto_ok urlNoPadding_unpadded hdecode
      rw [List.length_replicate] at hroom
      simp only [htoken, take_signedMessage] at hok
      split at hok
      · cases hok
      next hverify =>
      have hc : c.length < 2 ^ T.usizeBits := by
        rw [htoken] at hlength
        simp only [List.length_append] at hlength
        omega
      split at hok
      · cases hok
      next claims hclaims =>
      obtain rfl := Except.ok.inj hok
      refine ⟨options.hasClock_iff.mp (Bool.not_eq_true _ ▸ hclock), not_not.mp halg, ?_⟩
      exact ⟨h, c, s, buffer.take size, htoken, hdots, hreads, by omega, hverify,
        (decode_ok_iff T urlNoPadding_unpadded hc).mp hclaims⟩
    · cases hok
  · rintro ⟨hclock, halg, h, c, s, signature, htoken, hdots, hreads, hsize, hverify, hclaims⟩
    have hroom : signature.length ≤
        (List.replicate SIGNATURE_MAX_SIZE (0 : UInt8)).length := by
      rwa [List.length_replicate]
    obtain ⟨buffer, hdecode, hbuffer⟩ := hreads.decodeInto_eq hroom
      (lt_of_le_of_lt hsize (SIGNATURE_MAX_SIZE_lt T))
    have hc : c.length < 2 ^ T.usizeBits := by
      rw [htoken] at hlength
      simp only [List.length_append] at hlength
      omega
    unfold verifySignature
    rw [options.hasClock_iff.mpr hclock, splitOn_eq_three.mpr ⟨htoken, hdots⟩]
    simp only [Bool.false_eq_true, if_false, halg, ne_eq, not_true_eq_false, hdecode,
      hbuffer, htoken]
    rw [take_signedMessage, hverify]
    simp only [(decode_ok_iff T urlNoPadding_unpadded hc).mpr hclaims]

theorem Signed.received {key : Verifier} {token claimsJson : Bytes}
    (h : Signed key token claimsJson) : Received unit key token claimsJson := by
  obtain ⟨h, c, s, signature, htoken, hdots, htext, hsize, hverify, hclaims⟩ := h
  exact ⟨h, c, s, signature, htoken, hdots, htext ▸ reads_encodeText _ unit signature, hsize,
    hverify, hclaims ▸ reads_encodeText _ unit claimsJson⟩

theorem Received.unique {key : Verifier} {token claimsJson other : Bytes}
    (h : Received unit key token claimsJson) (hother : Received unit key token other) :
    other = claimsJson := by
  obtain ⟨h, c, s, _, htoken, hdots, _, _, _, hclaims⟩ := h
  obtain ⟨h', c', s', _, htoken', hdots', _, _, _, hclaims'⟩ := hother
  have hparts := (splitOn_eq_three.mpr ⟨htoken, hdots⟩).symm.trans
    (splitOn_eq_three.mpr ⟨htoken', hdots'⟩)
  simp only [List.cons.injEq, and_true] at hparts
  obtain ⟨-, rfl, -⟩ := hparts
  exact hclaims.unique hclaims'

/-- A build without vector kernels receives the signed tokens only. -/
theorem Received.signed {key : Verifier} {token claimsJson : Bytes}
    (h : Received .scalar key token claimsJson) : Signed key token claimsJson := by
  obtain ⟨h, c, s, signature, htoken, hdots, hreads, hsize, hverify, hclaims⟩ := h
  exact ⟨h, c, s, signature, htoken, hdots, hreads.of_scalar, hsize, hverify, hclaims.of_scalar⟩

end

/-! ## The claims -/

def TimeAccepted (enabled : Bool) (name : String) (clock : Option UInt64)
    (inTime : UInt64 → UInt64 → Prop) (claims : Fields) : Prop :=
  enabled = true → ∃ value time now, claims.lookup name = some value ∧
    value.asU64 = some time ∧ clock = some now ∧ inTime now time

def ExpAccepted (options : VerifyOptions) : Fields → Prop :=
  TimeAccepted options.exp "exp" options.clock fun now exp =>
    now.toNat ≤ exp.toNat + options.allowedTimeDrift.secs.toNat

def NbfAccepted (options : VerifyOptions) : Fields → Prop :=
  TimeAccepted options.nbf "nbf" options.clock fun now nbf =>
    nbf.toNat ≤ now.toNat + options.allowedTimeDrift.secs.toNat

def StringAccepted (allowed : Option (List String)) (name : String) (claims : Fields) : Prop :=
  ∀ expected, allowed = some expected → ∃ value text, claims.lookup name = some value ∧
    value.asStr = some text ∧ text ∈ expected

structure FieldsAccepted (options : VerifyOptions) (claims : Fields) : Prop where
  exp : ExpAccepted options claims
  nbf : NbfAccepted options claims
  aud : StringAccepted options.aud "aud" claims
  iss : StringAccepted options.iss "iss" claims

/-- The claims are JSON of the right type and pass the enabled checks. -/
def ClaimsAccepted {C : Type} (serde : Serde C) (options : VerifyOptions) (claimsJson : Bytes)
    (claims : C) : Prop :=
  if options.checksClaims then
    ∃ fields, serde.valueFromSlice claimsJson = some (.object fields) ∧
      FieldsAccepted options fields ∧ serde.fromValue (.object fields) = some claims
  else serde.fromSlice claimsJson = some claims

/-- Whenever an enabled time claim is compared, the comparison stays in range. -/
def TimeInRange (enabled : Bool) (name : String) (clock : Option UInt64)
    (inRange : UInt64 → UInt64 → Prop) (claims : Fields) : Prop :=
  enabled = true → ∀ value time now, claims.lookup name = some value →
    value.asU64 = some time → clock = some now → inRange now time

/-- The limit of `exp` is not below zero; without overflow checks the wrapped limit
may still let an `exp` past. -/
def ExpInRange (overflowChecks : Bool) (options : VerifyOptions) : Fields → Prop :=
  TimeInRange options.exp "exp" options.clock fun now exp =>
    options.allowedTimeDrift.secs ≤ now ∨ overflowChecks = false ∧
      now.toNat + 2 ^ 64 ≤ exp.toNat + options.allowedTimeDrift.secs.toNat

def NbfInRange (overflowChecks : Bool) (options : VerifyOptions) : Fields → Prop :=
  TimeInRange options.nbf "nbf" options.clock fun now nbf =>
    now.toNat + options.allowedTimeDrift.secs.toNat < 2 ^ 64 ∨ overflowChecks = false ∧
      nbf.toNat + 2 ^ 64 ≤ now.toNat + options.allowedTimeDrift.secs.toNat

section Checks

variable {enabled : Bool} {name : String} {clock : Option UInt64}
  {outside : UInt64 → UInt64 → Outcome Error Bool} {claims : Fields}

theorem checkTime_ok_iff :
    checkTime enabled name clock outside claims = .ok () ↔
      TimeAccepted enabled name clock (fun now time => outside now time = .ok false) claims := by
  unfold checkTime TimeAccepted
  cases enabled with
  | false => simp
  | true =>
    cases hvalue : claims.lookup name with
    | none => simp
    | some value =>
      cases htime : value.asU64 with
      | none => simp [htime]
      | some time =>
        cases clock with
        | none => simp [htime]
        | some now =>
          cases houtside : outside now time with
          | ok bad => cases bad <;> simp [htime, houtside]
          | err error => simp [htime, houtside]
          | panic => simp [htime, houtside]

theorem checkTime_ne_panic_iff (hclock : enabled = true → clock.isSome = true) :
    checkTime enabled name clock outside claims ≠ .panic ↔
      TimeInRange enabled name clock (fun now time => outside now time ≠ .panic) claims := by
  unfold checkTime TimeInRange
  cases enabled with
  | false => simp
  | true =>
    cases hvalue : claims.lookup name with
    | none => simp
    | some value =>
      cases htime : value.asU64 with
      | none =>
        refine iff_of_true (by simp [htime]) ?_
        rintro - _ time now ⟨⟩ hsome
        rw [htime] at hsome
        cases hsome
      | some time =>
        cases clock with
        | none => simp at hclock
        | some now =>
          have hrange : (∀ value' time' now', some value = some value' →
              value'.asU64 = some time' → some now = some now' →
                outside now' time' ≠ .panic) ↔ outside now time ≠ .panic := by
            refine ⟨fun h => h value time now rfl htime rfl, ?_⟩
            rintro h _ time' _ ⟨⟩ htime' ⟨⟩
            rw [htime] at htime'
            obtain rfl := Option.some.inj htime'
            exact h
          simp only [forall_const, hrange, htime, if_true]
          cases outside now time with
          | ok bad => cases bad <;> simp
          | err error => simp
          | panic => simp

theorem checkAllowed_ok_iff {allowed : Option (List String)} :
    checkAllowed allowed name claims = .ok () ↔ StringAccepted allowed name claims := by
  unfold checkAllowed StringAccepted
  cases allowed with
  | none => simp
  | some expected =>
    cases hvalue : claims.lookup name with
    | none => simp
    | some value =>
      cases htext : value.asStr with
      | none => simp [htext]
      | some text => by_cases hmem : text ∈ expected <;> simp [htext, hmem]

theorem checkAllowed_ne_panic {allowed : Option (List String)} :
    checkAllowed allowed name claims ≠ .panic := by
  unfold checkAllowed
  repeat' split
  all_goals exact nofun

end Checks

/-! ## The clock limits -/

theorem subU64_of_le (overflowChecks : Bool) {a b : UInt64} (h : b ≤ a) :
    ∃ c, subU64 overflowChecks a b = .ok c ∧ c.toNat + b.toNat = a.toNat := by
  have hnot : ¬a < b := UInt64.not_lt.mpr h
  have hle := UInt64.le_iff_toNat_le.mp h
  refine ⟨a - b, by simp [subU64, hnot], ?_⟩
  rw [UInt64.toNat_sub_of_le _ _ h]
  omega

theorem subU64_wraps {a b : UInt64} (h : a < b) :
    ∃ c, subU64 false a b = .ok c ∧ c.toNat + b.toNat = a.toNat + 2 ^ 64 := by
  have hlt := UInt64.lt_iff_toNat_lt.mp h
  have ha := a.toNat_lt
  have hb := b.toNat_lt
  refine ⟨a - b, rfl, ?_⟩
  rw [UInt64.toNat_sub]
  omega

theorem subU64_panics {a b : UInt64} (h : a < b) : subU64 true a b = .panic := by
  simp [subU64, h]

theorem addU64_of_lt (overflowChecks : Bool) {a b : UInt64} (h : a.toNat + b.toNat < 2 ^ 64) :
    ∃ c, addU64 overflowChecks a b = .ok c ∧ c.toNat = a.toNat + b.toNat := by
  refine ⟨a + b, ?_, ?_⟩
  · rw [addU64, decide_eq_false (Nat.not_le.mpr h), Bool.and_false]
    rfl
  · rw [UInt64.toNat_add, Nat.mod_eq_of_lt h]

theorem addU64_wraps {a b : UInt64} (h : ¬a.toNat + b.toNat < 2 ^ 64) :
    ∃ c, addU64 false a b = .ok c ∧ c.toNat + 2 ^ 64 = a.toNat + b.toNat := by
  have ha := a.toNat_lt
  have hb := b.toNat_lt
  refine ⟨a + b, rfl, ?_⟩
  rw [UInt64.toNat_add]
  omega

theorem addU64_panics {a b : UInt64} (h : ¬a.toNat + b.toNat < 2 ^ 64) :
    addU64 true a b = .panic := by
  rw [addU64, decide_eq_true (Nat.not_lt.mp h)]
  rfl

theorem expOutside_ok_iff (overflowChecks : Bool) (drift now exp : UInt64) :
    expOutside overflowChecks drift now exp = .ok false ↔
      now.toNat ≤ exp.toNat + drift.toNat ∧ (drift ≤ now ∨ overflowChecks = false ∧
        now.toNat + 2 ^ 64 ≤ exp.toNat + drift.toNat) := by
  by_cases hrange : drift ≤ now
  · obtain ⟨limit, hlimit, hvalue⟩ := subU64_of_le overflowChecks hrange
    simp only [expOutside, hlimit, Outcome.ok_bind, Outcome.ok.injEq, decide_eq_false_iff_not,
      UInt64.not_lt, UInt64.le_iff_toNat_le, hrange, true_or, and_true]
    omega
  · have hlt : now < drift := UInt64.not_le.mp hrange
    have hexp := exp.toNat_lt
    cases overflowChecks with
    | true => simp [expOutside, subU64_panics hlt, hrange]
    | false =>
      obtain ⟨limit, hlimit, hvalue⟩ := subU64_wraps hlt
      simp only [expOutside, hlimit, Outcome.ok_bind, Outcome.ok.injEq,
        decide_eq_false_iff_not, UInt64.le_iff_toNat_le, true_and,
        UInt64.lt_iff_toNat_lt] at *
      omega

theorem expOutside_ne_panic_iff (overflowChecks : Bool) (drift now exp : UInt64) :
    expOutside overflowChecks drift now exp ≠ .panic ↔ overflowChecks = false ∨ drift ≤ now := by
  by_cases hrange : drift ≤ now
  · obtain ⟨limit, hlimit, _⟩ := subU64_of_le overflowChecks hrange
    simp [expOutside, hlimit, hrange]
  · have hlt : now < drift := UInt64.not_le.mp hrange
    cases overflowChecks with
    | true => simp [expOutside, subU64_panics hlt, hrange]
    | false =>
      obtain ⟨limit, hlimit, _⟩ := subU64_wraps hlt
      simp [expOutside, hlimit]

theorem nbfOutside_ok_iff (overflowChecks : Bool) (drift now nbf : UInt64) :
    nbfOutside overflowChecks drift now nbf = .ok false ↔
      nbf.toNat ≤ now.toNat + drift.toNat ∧ (now.toNat + drift.toNat < 2 ^ 64 ∨
        overflowChecks = false ∧ nbf.toNat + 2 ^ 64 ≤ now.toNat + drift.toNat) := by
  by_cases hrange : now.toNat + drift.toNat < 2 ^ 64
  · obtain ⟨limit, hlimit, hvalue⟩ := addU64_of_lt overflowChecks hrange
    simp only [nbfOutside, hlimit, Outcome.ok_bind, Outcome.ok.injEq, decide_eq_false_iff_not,
      UInt64.not_lt, UInt64.le_iff_toNat_le, hrange, true_or, and_true, hvalue]
  · cases overflowChecks with
    | true => simp only [nbfOutside, addU64_panics hrange, Outcome.panic_bind, hrange,
        reduceCtorEq, false_and, or_self, and_false]
    | false =>
      obtain ⟨limit, hlimit, hvalue⟩ := addU64_wraps hrange
      simp only [nbfOutside, hlimit, Outcome.ok_bind, Outcome.ok.injEq,
        decide_eq_false_iff_not, UInt64.not_lt, UInt64.le_iff_toNat_le, true_and]
      omega

theorem nbfOutside_ne_panic_iff (overflowChecks : Bool) (drift now nbf : UInt64) :
    nbfOutside overflowChecks drift now nbf ≠ .panic ↔
      overflowChecks = false ∨ now.toNat + drift.toNat < 2 ^ 64 := by
  by_cases hrange : now.toNat + drift.toNat < 2 ^ 64
  · obtain ⟨limit, hlimit, _⟩ := addU64_of_lt overflowChecks hrange
    simp only [nbfOutside, hlimit, Outcome.ok_bind, hrange, or_true, iff_true]
    exact nofun
  · cases overflowChecks with
    | true => simp only [nbfOutside, addU64_panics hrange, Outcome.panic_bind, hrange,
        ne_eq, not_true_eq_false, reduceCtorEq, or_self]
    | false =>
      obtain ⟨limit, hlimit, _⟩ := addU64_wraps hrange
      simp only [nbfOutside, hlimit, Outcome.ok_bind, true_or, iff_true]
      exact nofun

/-! ## Exactness -/

theorem timeAccepted_and_iff {enabled : Bool} {name : String} {clock : Option UInt64}
    {inTime inRange : UInt64 → UInt64 → Prop} {claims : Fields} :
    TimeAccepted enabled name clock (fun now time => inTime now time ∧ inRange now time) claims ↔
      TimeAccepted enabled name clock inTime claims ∧
        TimeInRange enabled name clock inRange claims := by
  constructor
  · intro h
    constructor
    · intro henabled
      obtain ⟨value, time, now, hvalue, htime, hnow, hin, _⟩ := h henabled
      exact ⟨value, time, now, hvalue, htime, hnow, hin⟩
    · intro henabled value time now hvalue htime hnow
      obtain ⟨value', time', now', hvalue', htime', hnow', _, hin⟩ := h henabled
      obtain rfl := Option.some.inj (hvalue.symm.trans hvalue')
      obtain rfl := Option.some.inj (htime.symm.trans htime')
      obtain rfl := Option.some.inj (hnow.symm.trans hnow')
      exact hin
  · rintro ⟨haccepted, hrange⟩ henabled
    obtain ⟨value, time, now, hvalue, htime, hnow, hin⟩ := haccepted henabled
    exact ⟨value, time, now, hvalue, htime, hnow, hin,
      hrange henabled value time now hvalue htime hnow⟩

section Claims

variable (overflowChecks : Bool) (options : VerifyOptions) (fields : Fields)

theorem checkExp_ok_iff :
    checkExp overflowChecks options fields = .ok () ↔
      ExpAccepted options fields ∧ ExpInRange overflowChecks options fields := by
  unfold checkExp ExpAccepted ExpInRange
  rw [checkTime_ok_iff, ← timeAccepted_and_iff]
  simp only [expOutside_ok_iff]

theorem checkNbf_ok_iff :
    checkNbf overflowChecks options fields = .ok () ↔
      NbfAccepted options fields ∧ NbfInRange overflowChecks options fields := by
  unfold checkNbf NbfAccepted NbfInRange
  rw [checkTime_ok_iff, ← timeAccepted_and_iff]
  simp only [nbfOutside_ok_iff]

theorem checkClaims_ok_iff :
    checkClaims overflowChecks options fields = .ok () ↔
      FieldsAccepted options fields ∧ ExpInRange overflowChecks options fields ∧
        NbfInRange overflowChecks options fields := by
  have hexp := checkExp_ok_iff overflowChecks options fields
  have hnbf := checkNbf_ok_iff overflowChecks options fields
  have haud : checkAud options fields = .ok () ↔ _ := checkAllowed_ok_iff
  have hiss : checkIss options fields = .ok () ↔ _ := checkAllowed_ok_iff
  unfold checkClaims
  simp only [Outcome.bind_eq_ok, hexp, hnbf, haud, hiss]
  constructor
  · rintro ⟨_, ⟨hexp, hexpRange⟩, _, ⟨hnbf, hnbfRange⟩, _, haud, hiss⟩
    exact ⟨⟨hexp, hnbf, haud, hiss⟩, hexpRange, hnbfRange⟩
  · rintro ⟨⟨hexp, hnbf, haud, hiss⟩, hexpRange, hnbfRange⟩
    exact ⟨(), ⟨hexp, hexpRange⟩, (), ⟨hnbf, hnbfRange⟩, (), haud, hiss⟩

theorem checkClaims_ne_panic_iff :
    checkClaims overflowChecks options fields ≠ .panic ↔
      checkExp overflowChecks options fields ≠ .panic ∧
        (checkExp overflowChecks options fields = .ok () →
          checkNbf overflowChecks options fields ≠ .panic) := by
  have haud : checkAud options fields ≠ .panic := checkAllowed_ne_panic
  have hiss : checkIss options fields ≠ .panic := checkAllowed_ne_panic
  unfold checkClaims
  cases checkExp overflowChecks options fields with
  | err error => simp
  | panic => simp
  | ok _ =>
    cases checkNbf overflowChecks options fields with
    | err error => simp
    | panic => simp
    | ok _ =>
      cases hrun : checkAud options fields with
      | err error => simp
      | panic => exact absurd hrun haud
      | ok _ => simpa using hiss

/-- The clock comparisons that `checkClaims` reaches stay in range; without overflow
checks that matters for claims that are acceptable otherwise. -/
def ClocksInRange (acceptable : Prop) : Prop :=
  if overflowChecks then
    ExpInRange true options fields ∧ (ExpAccepted options fields → NbfInRange true options fields)
  else
    acceptable → ExpInRange false options fields ∧ NbfInRange false options fields

theorem checkClaims_wraps_ne_panic (hclock : options.HasClock) :
    checkClaims false options fields ≠ .panic := by
  rw [checkClaims_ne_panic_iff]
  constructor
  · refine (checkTime_ne_panic_iff fun henabled => hclock (.inl henabled)).mpr ?_
    intro _ _ _ _ _ _ _
    exact (expOutside_ne_panic_iff _ _ _ _).mpr (.inl rfl)
  · intro _
    refine (checkTime_ne_panic_iff fun henabled => hclock (.inr henabled)).mpr ?_
    intro _ _ _ _ _ _ _
    exact (nbfOutside_ne_panic_iff _ _ _ _).mpr (.inl rfl)

theorem checkClaims_checked_ne_panic_iff (hclock : options.HasClock) :
    checkClaims true options fields ≠ .panic ↔
      ExpInRange true options fields ∧
        (ExpAccepted options fields → NbfInRange true options fields) := by
  have hexp : checkExp true options fields ≠ .panic ↔ ExpInRange true options fields := by
    unfold checkExp ExpInRange
    rw [checkTime_ne_panic_iff fun henabled => hclock (.inl henabled)]
    simp only [expOutside_ne_panic_iff, reduceCtorEq, false_or, false_and, or_false]
  have hnbf : checkNbf true options fields ≠ .panic ↔ NbfInRange true options fields := by
    unfold checkNbf NbfInRange
    rw [checkTime_ne_panic_iff fun henabled => hclock (.inr henabled)]
    simp only [nbfOutside_ne_panic_iff, reduceCtorEq, false_or, false_and, or_false]
  rw [checkClaims_ne_panic_iff, hexp, hnbf, checkExp_ok_iff]
  exact ⟨fun h => ⟨h.1, fun haccepted => h.2 ⟨haccepted, h.1⟩⟩,
    fun h => ⟨h.1, fun haccepted => h.2 haccepted.1⟩⟩

end Claims

section

variable {C : Type}

theorem parseClaims_object_iff (overflowChecks : Bool) (serde : Serde C)
    (options : VerifyOptions) (fields : Fields) (hclock : options.HasClock) :
    ((do checkClaims overflowChecks options fields
         orInvalidToken (serde.fromValue (.object fields)) : Outcome Error C) ≠ .panic ∧
      ∀ claims, (do checkClaims overflowChecks options fields
                    orInvalidToken (serde.fromValue (.object fields))) = .ok claims ↔
        FieldsAccepted options fields ∧ serde.fromValue (.object fields) = some claims) ↔
      ClocksInRange overflowChecks options fields
        (FieldsAccepted options fields ∧ (serde.fromValue (.object fields)).isSome) := by
  have hok := checkClaims_ok_iff overflowChecks options fields
  have hread : ∀ claims : C, orInvalidToken (serde.fromValue (.object fields)) = .ok claims ↔
      serde.fromValue (.object fields) = some claims := by
    intro claims
    cases serde.fromValue (.object fields) <;> simp [orInvalidToken]
  have hreadPanic : orInvalidToken (serde.fromValue (.object fields)) ≠ .panic := by
    cases serde.fromValue (.object fields) <;> simp [orInvalidToken]
  have hpanic : (do checkClaims overflowChecks options fields
                    orInvalidToken (serde.fromValue (.object fields)) : Outcome Error C) ≠ .panic ↔
      checkClaims overflowChecks options fields ≠ .panic := by
    cases checkClaims overflowChecks options fields with
    | ok _ => simpa using hreadPanic
    | err error => simp
    | panic => simp
  simp only [hpanic, Outcome.bind_eq_ok, hok, hread]
  unfold ClocksInRange
  cases overflowChecks with
  | true =>
    simp only [if_true, checkClaims_checked_ne_panic_iff options fields hclock]
    refine ⟨fun h => h.1, fun h => ⟨h, ?_⟩⟩
    intro claims
    exact ⟨fun ⟨_, ⟨haccepted, _⟩, hclaims⟩ => ⟨haccepted, hclaims⟩,
      fun ⟨haccepted, hclaims⟩ => ⟨(), ⟨haccepted, h.1, h.2 haccepted.exp⟩, hclaims⟩⟩
  | false =>
    simp only [Bool.false_eq_true, if_false, ne_eq,
      checkClaims_wraps_ne_panic options fields hclock, not_false_eq_true, true_and]
    constructor
    · rintro h ⟨haccepted, hsome⟩
      obtain ⟨claims, hclaims⟩ := Option.isSome_iff_exists.mp hsome
      obtain ⟨_, ⟨_, hrange⟩, _⟩ := (h claims).mpr ⟨haccepted, hclaims⟩
      exact hrange
    · intro h claims
      exact ⟨fun ⟨_, ⟨haccepted, _⟩, hclaims⟩ => ⟨haccepted, hclaims⟩,
        fun ⟨haccepted, hclaims⟩ =>
          ⟨(), ⟨haccepted, h ⟨haccepted, by rw [hclaims]; rfl⟩⟩, hclaims⟩⟩

theorem checkClaims_ne_panic_of_clock (overflowChecks : Bool) (options : VerifyOptions)
    (fields : Fields) (hclock : options.HasClock) :
    checkClaims overflowChecks options fields ≠ .panic ↔
      (overflowChecks = true → ExpInRange true options fields ∧
        (ExpAccepted options fields → NbfInRange true options fields)) := by
  cases overflowChecks with
  | true => simpa using checkClaims_checked_ne_panic_iff options fields hclock
  | false => simpa using checkClaims_wraps_ne_panic options fields hclock

theorem parseObject_refused_iff (overflowChecks : Bool) (serde : Serde C)
    (options : VerifyOptions) (fields : Fields) (hclock : options.HasClock) :
    ((do checkClaims overflowChecks options fields
         orInvalidToken (serde.fromValue (.object fields)) : Outcome Error C) ≠ .panic ∧
      ∀ claims, (do checkClaims overflowChecks options fields
                    orInvalidToken (serde.fromValue (.object fields))) ≠ .ok claims) ↔
      (overflowChecks = true → ExpInRange true options fields ∧
        (ExpAccepted options fields → NbfInRange true options fields)) ∧
      ¬(FieldsAccepted options fields ∧ ExpInRange overflowChecks options fields ∧
        NbfInRange overflowChecks options fields ∧
          (serde.fromValue (.object fields)).isSome) := by
  have hok := checkClaims_ok_iff overflowChecks options fields
  rw [← checkClaims_ne_panic_of_clock overflowChecks options fields hclock]
  cases hrun : checkClaims overflowChecks options fields with
  | ok _ =>
    obtain ⟨haccepted, hexp, hnbf⟩ := hok.mp hrun
    cases serde.fromValue (.object fields) <;>
      simp [orInvalidToken, haccepted, hexp, hnbf]
  | err error =>
    have hnot : ¬(FieldsAccepted options fields ∧ ExpInRange overflowChecks options fields ∧
        NbfInRange overflowChecks options fields ∧
          (serde.fromValue (.object fields)).isSome) := by
      rintro ⟨haccepted, hexp, hnbf, -⟩
      rw [hok.mpr ⟨haccepted, hexp, hnbf⟩] at hrun
      cases hrun
    simpa using hnot
  | panic => simp

/-- The condition on the octets of the claims. -/
def ClaimsInRange (overflowChecks : Bool) (serde : Serde C) (options : VerifyOptions)
    (claimsJson : Bytes) : Prop :=
  ∀ fields, options.checksClaims = true →
    serde.valueFromSlice claimsJson = some (.object fields) →
    ClocksInRange overflowChecks options fields
      (FieldsAccepted options fields ∧ (serde.fromValue (.object fields)).isSome)

theorem parseClaims_iff (overflowChecks : Bool) (serde : Serde C) (options : VerifyOptions)
    (claimsJson : Bytes) (hclock : options.HasClock) :
    (parseClaims overflowChecks serde options claimsJson ≠ .panic ∧
      ∀ claims, parseClaims overflowChecks serde options claimsJson = .ok claims ↔
        ClaimsAccepted serde options claimsJson claims) ↔
      ClaimsInRange overflowChecks serde options claimsJson := by
  unfold parseClaims ClaimsAccepted ClaimsInRange
  cases hchecks : options.checksClaims with
  | false =>
    simp only [Bool.false_eq_true, if_false, IsEmpty.forall_iff, implies_true, iff_true]
    cases serde.fromSlice claimsJson <;> simp [orInvalidToken]
  | true =>
    simp only [if_true, forall_const]
    cases hvalue : serde.valueFromSlice claimsJson with
    | none => simp
    | some value =>
      cases value with
      | object fields =>
        have hobject := parseClaims_object_iff overflowChecks serde options fields hclock
        simp only [Option.some.injEq, Value.object.injEq, exists_eq_left', forall_eq']
        exact hobject
      | null => simp
      | bool value => simp
      | number value => simp
      | string value => simp
      | array items => simp

structure Accepted (serde : Serde C) (key : Verifier) (header : Header) (token : Bytes)
    (options : VerifyOptions) (claims : C) : Prop where
  clock : options.HasClock
  alg : header.alg = key.algorithm
  payload : ∃ claimsJson, Signed key token claimsJson ∧
    ClaimsAccepted serde options claimsJson claims

/-- The claims are refused, and no clock comparison on the way panics. -/
def ClaimsRefused (overflowChecks : Bool) (serde : Serde C) (options : VerifyOptions)
    (claimsJson : Bytes) : Prop :=
  if options.checksClaims then
    ∀ fields, serde.valueFromSlice claimsJson = some (.object fields) →
      (overflowChecks = true → ExpInRange true options fields ∧
        (ExpAccepted options fields → NbfInRange true options fields)) ∧
      ¬(FieldsAccepted options fields ∧ ExpInRange overflowChecks options fields ∧
        NbfInRange overflowChecks options fields ∧ (serde.fromValue (.object fields)).isSome)
  else serde.fromSlice claimsJson = none

theorem parseClaims_refused_iff (overflowChecks : Bool) (serde : Serde C)
    (options : VerifyOptions) (claimsJson : Bytes) (hclock : options.HasClock) :
    (parseClaims overflowChecks serde options claimsJson ≠ .panic ∧
      ∀ claims, parseClaims overflowChecks serde options claimsJson ≠ .ok claims) ↔
      ClaimsRefused overflowChecks serde options claimsJson := by
  unfold parseClaims ClaimsRefused
  cases hchecks : options.checksClaims with
  | false =>
    simp only [Bool.false_eq_true, if_false]
    cases serde.fromSlice claimsJson <;> simp [orInvalidToken]
  | true =>
    simp only [if_true]
    cases hvalue : serde.valueFromSlice claimsJson with
    | none => simp
    | some value =>
      cases value with
      | object fields =>
        simp only [Option.some.injEq, Value.object.injEq, forall_eq']
        exact parseObject_refused_iff overflowChecks serde options fields hclock
      | null => simp
      | bool value => simp
      | number value => simp
      | string value => simp
      | array items => simp

/-- `parse_and_verify` returns, and accepts what it is to accept, if and only if the clock
comparisons it reaches stay in range and the claims are refused of a token that only the
kernels of the build receive. -/
theorem parseAndVerify_exact_iff (unit : VectorUnit) (T : Target) (overflowChecks : Bool)
    (serde : Serde C) (key : Verifier) (header : Header) (token : Token T)
    (options : VerifyOptions) :
    (parseAndVerify unit T overflowChecks serde key header token.octets options ≠ .panic ∧
      ∀ claims, parseAndVerify unit T overflowChecks serde key header token.octets options =
          .ok claims ↔ Accepted serde key header token.octets options claims) ↔
      (options.HasClock → header.alg = key.algorithm →
        ∀ claimsJson, Received unit key token.octets claimsJson →
          (Signed key token.octets claimsJson →
            ClaimsInRange overflowChecks serde options claimsJson) ∧
          (¬Signed key token.octets claimsJson →
            ClaimsRefused overflowChecks serde options claimsJson)) := by
  have hreceived := verifySignature_ok_iff unit T key header token options
  unfold parseAndVerify
  cases hrun : verifySignature unit T key header token.octets options with
  | error err =>
    have hnone : ∀ claimsJson, ¬(options.HasClock ∧ header.alg = key.algorithm ∧
        Received unit key token.octets claimsJson) := by
      intro claimsJson h
      rw [(hreceived claimsJson).mpr h] at hrun
      cases hrun
    refine iff_of_true ⟨by simp, ?_⟩ ?_
    · intro claims
      refine iff_of_false (by simp) ?_
      rintro ⟨hclock, halg, claimsJson, h, _⟩
      exact hnone claimsJson ⟨hclock, halg, h.received unit⟩
    · intro hclock halg claimsJson h
      exact absurd ⟨hclock, halg, h⟩ (hnone claimsJson)
  | ok claimsJson =>
    obtain ⟨hclock, halg, h⟩ := (hreceived claimsJson).mp hrun
    have hcondition : (options.HasClock → header.alg = key.algorithm →
        ∀ other, Received unit key token.octets other →
          (Signed key token.octets other →
            ClaimsInRange overflowChecks serde options other) ∧
          (¬Signed key token.octets other →
            ClaimsRefused overflowChecks serde options other)) ↔
        (Signed key token.octets claimsJson →
          ClaimsInRange overflowChecks serde options claimsJson) ∧
        (¬Signed key token.octets claimsJson →
          ClaimsRefused overflowChecks serde options claimsJson) := by
      refine ⟨fun hall => hall hclock halg claimsJson h, fun hone _ _ other hother => ?_⟩
      rwa [h.unique unit hother]
    rw [hcondition]
    by_cases hsigned : Signed key token.octets claimsJson
    · have haccepted : ∀ claims, Accepted serde key header token.octets options claims ↔
          ClaimsAccepted serde options claimsJson claims := by
        intro claims
        constructor
        · rintro ⟨_, _, other, hother, hclaims⟩
          rwa [h.unique unit (hother.received unit)] at hclaims
        · intro hclaims
          exact ⟨hclock, halg, claimsJson, hsigned, hclaims⟩
      simp only [haccepted, hsigned, not_true_eq_false, false_implies, and_true, forall_const]
      exact parseClaims_iff overflowChecks serde options claimsJson hclock
    · have hnone : ∀ claims, ¬Accepted serde key header token.octets options claims := by
        rintro claims ⟨_, _, other, hother, _⟩
        exact hsigned (h.unique unit (hother.received unit) ▸ hother)
      simp only [hnone, iff_false, hsigned, not_false_eq_true, false_implies, true_and,
        forall_const]
      exact parseClaims_refused_iff overflowChecks serde options claimsJson hclock

/-- The octets of `"exp":9999999999` as an object. -/
def unexpiredJson : Bytes :=
  [0x7b, 0x22, 0x65, 0x78, 0x70, 0x22, 0x3a, 0x39, 0x39, 0x39, 0x39, 0x39, 0x39, 0x39, 0x39,
    0x39, 0x39, 0x7d]

def unexpiredToken : Token ⟨64, by decide⟩ where
  octets := encodeText .urlNoPadding [0x7b, 0x7d] ++ [DOT] ++
    encodeText .urlNoPadding unexpiredJson ++ [DOT] ++ encodeText .urlNoPadding [0]
  length_lt := by decide

def unexpiredFields : Fields := [("exp", .number (.posInt 9999999999))]

/-- Claims without fields, read from the one text of `unexpiredToken`. -/
def unexpiredSerde : Serde Unit where
  headerToString := fun _ => none
  headerFromSlice := fun _ => none
  toString := fun _ => none
  fromSlice := fun json => if json = unexpiredJson then some () else none
  valueFromSlice := fun json =>
    if json = unexpiredJson then some (.object unexpiredFields) else none
  fromValue := fun value =>
    match value with
    | .object _ => some ()
    | _ => none

def unsetClock : VerifyOptions where
  allowedTimeDrift := ⟨30, 0⟩
  nbf := false
  exp := true
  aud := none
  iss := none
  clock := some 0

def anyKey : Verifier := ⟨.HS256, fun _ _ => .ok ()⟩

def plainHeader : Header := ⟨.JWT, .HS256, none, none, none, none, none, none, none⟩

theorem unexpiredToken_signed : Signed anyKey unexpiredToken.octets unexpiredJson := by
  refine ⟨_, _, _, [0], rfl, ⟨?_, ?_, ?_⟩, rfl, by decide, rfl, rfl⟩
  · decide
  · decide
  · decide

theorem unexpiredToken_accepted :
    Accepted unexpiredSerde anyKey plainHeader unexpiredToken.octets unsetClock () := by
  refine ⟨by simp [VerifyOptions.HasClock, unsetClock], rfl, unexpiredJson,
    unexpiredToken_signed, unexpiredFields, by simp [unexpiredSerde], ⟨?_, ?_, ?_, ?_⟩, rfl⟩
  · intro _
    exact ⟨_, 9999999999, 0, rfl, rfl, rfl, Nat.zero_le _⟩
  · exact nofun
  · exact nofun
  · exact nofun

/-- With overflow checks the token makes the program panic, without them it is rejected. -/
theorem unexpiredToken_refused :
    ¬(parseAndVerify .scalar ⟨64, by decide⟩ true unexpiredSerde anyKey plainHeader
          unexpiredToken.octets unsetClock ≠ .panic ∧
        ∀ claims, parseAndVerify .scalar ⟨64, by decide⟩ true unexpiredSerde anyKey plainHeader
            unexpiredToken.octets unsetClock = .ok claims ↔
          Accepted unexpiredSerde anyKey plainHeader unexpiredToken.octets unsetClock claims) ∧
      ¬(parseAndVerify .scalar ⟨64, by decide⟩ false unexpiredSerde anyKey plainHeader
          unexpiredToken.octets unsetClock ≠ .panic ∧
        ∀ claims, parseAndVerify .scalar ⟨64, by decide⟩ false unexpiredSerde anyKey plainHeader
            unexpiredToken.octets unsetClock = .ok claims ↔
          Accepted unexpiredSerde anyKey plainHeader unexpiredToken.octets unsetClock claims) := by
  have hsigned := (verifySignature_ok_iff .scalar ⟨64, by decide⟩ anyKey plainHeader
    unexpiredToken unsetClock unexpiredJson).mpr
    ⟨unexpiredToken_accepted.clock, rfl, unexpiredToken_signed.received .scalar⟩
  have hvalue : unexpiredSerde.valueFromSlice unexpiredJson = some (.object unexpiredFields) := by
    simp [unexpiredSerde]
  unfold parseAndVerify
  rw [hsigned]
  simp only [parseClaims, hvalue]
  constructor
  · rintro ⟨hpanic, _⟩
    revert hpanic
    decide
  · rintro ⟨_, hclaims⟩
    have hrun := (hclaims ()).mpr unexpiredToken_accepted
    revert hrun
    decide

end

/-! ## Tokens made by `sign` -/

section

variable (unit : VectorUnit) (T : Target) {C : Type} (serde : Serde C)

theorem dot_not_mem_encodeText (octets : Bytes) : DOT ∉ encodeText .urlNoPadding octets := by
  intro hmem
  have hne : ∀ v, sextetToBase64Char v .urlNoPadding ≠ DOT := by
    intro v hdot
    have hnone : ∀ s ∈ (characters .urlNoPadding).inverse.segments, ¬s.Holds DOT := by decide
    obtain ⟨s, hs, hholds⟩ := sextetToBase64Char_range .urlNoPadding v
    rw [hdot] at hholds
    exact hnone s hs hholds
  exact encodeText_forall (p := fun c => c ≠ DOT) hne octets DOT hmem rfl

/-- Octets that the build encodes as the alphabet does. -/
structure Encodable (octets : Bytes) : Prop where
  length_lt : octets.length < 2 ^ (T.usizeBits - 1)
  written : WritesText unit octets

theorem encode_text {octets text : Bytes} (hoctets : Encodable unit T octets)
    (h : encode unit T octets .urlNoPadding = some text) :
    text = encodeText .urlNoPadding octets := by
  rw [encode_eq unit T hoctets.length_lt, (writtenText_eq_iff unit octets).mpr hoctets.written] at h
  simpa [completed, Alphabet.isPadded] using (Option.some.inj h).symm

theorem signature_fits (signature : Signature) :
    signature.value.length < 2 ^ (T.usizeBits - 1) := by
  have hwide := T.wide
  calc signature.value.length ≤ SIGNATURE_MAX_SIZE := signature.length_le
    _ < 2 ^ 31 := by decide
    _ ≤ 2 ^ (T.usizeBits - 1) := Nat.pow_le_pow_right (by omega) (by omega)

def signedMessage (headerJson claimsJson : Bytes) : Bytes :=
  encodeText .urlNoPadding headerJson ++ [DOT] ++ encodeText .urlNoPadding claimsJson

theorem sign_ok {signer : Signer} {header : Header} {claims : C} {token : Bytes}
    (hheader : ∀ json, serde.headerToString header = some json → Encodable unit T json)
    (hclaims : ∀ json, serde.toString claims = some json → Encodable unit T json)
    (hsignature : ∀ message signature, signer.sign message = .ok signature →
      WritesText unit signature.value)
    (h : sign unit T serde signer header claims = .ok token) :
    signer.algorithm = header.alg ∧ ∃ headerJson claimsJson signature,
      serde.headerToString header = some headerJson ∧ serde.toString claims = some claimsJson ∧
      signer.sign (signedMessage headerJson claimsJson) = .ok signature ∧
      token = signedMessage headerJson claimsJson ++ [DOT] ++
        encodeText .urlNoPadding signature.value := by
  unfold sign at h
  split at h
  · cases h
  next halg =>
  split at h
  · cases h
  next headerJson hheaderJson =>
  split at h
  · cases h
  next headerText hheaderText =>
  split at h
  · cases h
  next claimsJson hclaimsJson =>
  split at h
  · cases h
  next claimsText hclaimsText =>
  simp only at h
  split at h
  · cases h
  next signature hsign =>
  split at h
  · cases h
  next signatureText hsignatureText =>
  obtain rfl := Outcome.ok.inj h
  obtain rfl := encode_text unit T (hheader _ hheaderJson) hheaderText
  obtain rfl := encode_text unit T (hclaims _ hclaimsJson) hclaimsText
  obtain rfl := encode_text unit T ⟨signature_fits T signature, hsignature _ _ hsign⟩
    hsignatureText
  exact ⟨not_not.mp halg, headerJson, claimsJson, signature, hheaderJson, hclaimsJson, hsign, rfl⟩

section Signed

variable {unit} {T} {headerJson claimsJson signature : Bytes}

theorem splitOn_signed : (signedMessage headerJson claimsJson ++ [DOT] ++
    encodeText .urlNoPadding signature).splitOn DOT = [encodeText .urlNoPadding headerJson,
      encodeText .urlNoPadding claimsJson, encodeText .urlNoPadding signature] :=
  splitOn_eq_three.mpr ⟨rfl, dot_not_mem_encodeText _, dot_not_mem_encodeText _,
    dot_not_mem_encodeText _⟩

theorem parts_fit (hfits : (signedMessage headerJson claimsJson ++ [DOT] ++
    encodeText .urlNoPadding signature).length < 2 ^ (T.usizeBits - 1)) :
    (encodeText .urlNoPadding headerJson).length < 2 ^ T.usizeBits ∧
      (encodeText .urlNoPadding claimsJson).length < 2 ^ T.usizeBits := by
  have hwide : 2 ^ (T.usizeBits - 1) ≤ 2 ^ T.usizeBits :=
    Nat.pow_le_pow_right (by omega) (by omega)
  simp only [signedMessage, List.length_append] at hfits
  omega

theorem parseHeader_signed {header : Header} (hfits : (signedMessage headerJson claimsJson ++
      [DOT] ++ encodeText .urlNoPadding signature).length < 2 ^ (T.usizeBits - 1))
    (hreads : serde.headerFromSlice headerJson = some header) :
    parseHeader unit T serde (signedMessage headerJson claimsJson ++ [DOT] ++
      encodeText .urlNoPadding signature) = .ok header := by
  have hdecode := (decode_ok_iff T urlNoPadding_unpadded (parts_fit hfits).1).mpr
    (reads_encodeText _ unit headerJson)
  unfold parseHeader
  rw [splitOn_signed]
  simp only [hdecode, hreads]

theorem verifySignature_signed {key : Verifier} {header : Header} {options : VerifyOptions}
    (hfits : (signedMessage headerJson claimsJson ++ [DOT] ++
      encodeText .urlNoPadding signature).length < 2 ^ (T.usizeBits - 1))
    (hsize : signature.length ≤ SIGNATURE_MAX_SIZE) (hclock : options.HasClock)
    (halg : header.alg = key.algorithm) :
    verifySignature unit T key header (signedMessage headerJson claimsJson ++ [DOT] ++
        encodeText .urlNoPadding signature) options =
      match key.verify (signedMessage headerJson claimsJson) signature with
      | .error _ => .error .invalidSignature
      | .ok () => .ok claimsJson := by
  have hroom : signature.length ≤ (List.replicate SIGNATURE_MAX_SIZE (0 : UInt8)).length := by
    rwa [List.length_replicate]
  obtain ⟨buffer, hbuffer, hvalue⟩ :=
    (reads_encodeText .urlNoPadding unit signature).decodeInto_eq hroom
      (lt_of_le_of_lt hsize (SIGNATURE_MAX_SIZE_lt T))
  have hdecode := (decode_ok_iff T urlNoPadding_unpadded (parts_fit hfits).2).mpr
    (reads_encodeText _ unit claimsJson)
  unfold verifySignature
  rw [options.hasClock_iff.mpr hclock, splitOn_signed]
  have hmessage := take_signedMessage (encodeText .urlNoPadding headerJson)
    (encodeText .urlNoPadding claimsJson) (encodeText .urlNoPadding signature)
  cases hverify : key.verify (signedMessage headerJson claimsJson) signature with
  | error err =>
    rw [signedMessage] at hverify ⊢
    simp only [Bool.false_eq_true, if_false, halg, ne_eq, not_true_eq_false, hbuffer, hvalue,
      hmessage, hverify]
  | ok accepted =>
    rw [signedMessage] at hverify ⊢
    simp only [Bool.false_eq_true, if_false, halg, ne_eq, not_true_eq_false, hbuffer, hvalue,
      hmessage, hverify, hdecode]

end Signed

theorem SecretKey.sign_value {macs : Macs} {k : SecretKey} {message : Bytes}
    {signature : Signature} (h : (k.signer macs).sign message = .ok signature) :
    k.mac macs message = .ok signature.value := by
  obtain ⟨mac, hmac, hsignature⟩ := except_bind_eq_ok.mp h
  unfold Signature.tryFrom at hsignature
  split at hsignature
  · obtain rfl := Except.ok.inj hsignature
    exact hmac
  · cases hsignature

theorem SecretKey.verify_rejects {macs : Macs} {k : SecretKey} {message signature : Bytes}
    (h : k.mac macs message ≠ .ok signature) :
    ∃ err, (k.verifier macs).verify message signature = .error err := by
  cases hverify : (k.verifier macs).verify message signature with
  | error err => exact ⟨err, rfl⟩
  | ok accepted =>
    obtain ⟨mac, hmac, hequal⟩ := except_bind_eq_ok.mp hverify
    split at hequal
    · next heq => exact absurd (heq ▸ hmac) h
    · cases hequal

/-- A token signed with a shared key gives back its header.  Its claims are read under exactly
the keys of that algorithm whose code over the message is the one in the token. -/
theorem parseAndVerify_sign (overflowChecks : Bool) (macs : Macs) (k : SecretKey)
    {header : Header} {claims : C} {token : Bytes}
    (hheader : ∀ json, serde.headerToString header = some json →
      Encodable unit T json ∧ serde.headerFromSlice json = some header)
    (hclaims : ∀ json, serde.toString claims = some json → Encodable unit T json)
    (hmac : ∀ message mac, k.mac macs message = .ok mac → WritesText unit mac)
    (htoken : token.length < 2 ^ (T.usizeBits - 1))
    (h : sign unit T serde (k.signer macs) header claims = .ok token) :
    parseHeader unit T serde token = .ok header ∧ ∃ message claimsJson mac,
      serde.toString claims = some claimsJson ∧ k.mac macs message = .ok mac ∧
      token = message ++ [DOT] ++ encodeText .urlNoPadding mac ∧
      ∀ (other : SecretKey) (options : VerifyOptions), options.HasClock →
        (other.algorithm ≠ k.algorithm →
          parseAndVerify unit T overflowChecks serde (other.verifier macs) header token options =
            .err .invalidToken) ∧
        (other.algorithm = k.algorithm → other.mac macs message ≠ .ok mac →
          parseAndVerify unit T overflowChecks serde (other.verifier macs) header token options =
            .err .invalidSignature) ∧
        (other.algorithm = k.algorithm → other.mac macs message = .ok mac →
          parseAndVerify unit T overflowChecks serde (other.verifier macs) header token options =
            parseClaims overflowChecks serde options claimsJson) := by
  obtain ⟨halg, headerJson, claimsJson, signature, hheaderJson, hclaimsJson, hsign, rfl⟩ :=
    sign_ok unit T serde (fun json hjson => (hheader json hjson).1) hclaims
      (fun message signature hsign => hmac message _ (SecretKey.sign_value hsign)) h
  have hmac := SecretKey.sign_value hsign
  have hbinds {other : SecretKey} (hsame : other.algorithm = k.algorithm) :
      header.alg = (other.verifier macs).algorithm := halg.symm.trans hsame.symm
  refine ⟨parseHeader_signed serde htoken (hheader _ hheaderJson).2, _, claimsJson,
    signature.value, hclaimsJson, hmac, rfl, fun other options hclock => ⟨?_, ?_, ?_⟩⟩
  · intro hne
    have hbound : header.alg ≠ (other.verifier macs).algorithm := fun hother =>
      hne (hother.symm.trans halg.symm)
    unfold parseAndVerify verifySignature
    rw [options.hasClock_iff.mpr hclock, if_neg (by simp), if_pos hbound]
  · intro hsame hother
    unfold parseAndVerify
    rw [verifySignature_signed htoken signature.length_le hclock (hbinds hsame)]
    obtain ⟨err, hverify⟩ := SecretKey.verify_rejects hother
    rw [hverify]
  · intro hsame hother
    unfold parseAndVerify
    rw [verifySignature_signed htoken signature.length_le hclock (hbinds hsame)]
    have hverify : (other.verifier macs).verify (signedMessage headerJson claimsJson)
        signature.value = .ok () :=
      except_bind_eq_ok.mpr ⟨signature.value, hother, if_pos rfl⟩
    rw [hverify]

def plainHeaderJson : Bytes :=
  [0x7b, 0x22, 0x74, 0x79, 0x70, 0x22, 0x3a, 0x22, 0x4a, 0x57, 0x54, 0x22, 0x2c, 0x22, 0x61,
    0x6c, 0x67, 0x22, 0x3a, 0x22, 0x48, 0x53, 0x32, 0x35, 0x36, 0x22, 0x7d]

/-- Claims without fields. -/
def emptySerde : Serde Unit where
  headerToString := fun _ => some plainHeaderJson
  headerFromSlice := fun json => if json = plainHeaderJson then some plainHeader else none
  toString := fun _ => some [0x7b, 0x7d]
  fromSlice := fun json => if json = [0x7b, 0x7d] then some () else none
  valueFromSlice := fun json => if json = [0x7b, 0x7d] then some (.object []) else none
  fromValue := fun value =>
    match value with
    | .object _ => some ()
    | _ => none

def keyAsMac : Macs := ⟨fun key _ => key, fun key _ => key, fun key _ => key, fun key _ => key⟩

def emptyToken : Token ⟨64, by decide⟩ where
  octets := signedMessage plainHeaderJson [0x7b, 0x7d] ++ [DOT] ++
    encodeText .urlNoPadding (List.replicate 32 7)
  length_lt := by decide

def sevensKey : SecretKey := ⟨List.replicate 32 7, .HS256⟩

def unchecked : VerifyOptions where
  allowedTimeDrift := ⟨30, 0⟩
  nbf := false
  exp := false
  aud := none
  iss := none
  clock := none

theorem parseAndVerify_sign_empty :
    parseHeader .neon ⟨64, by decide⟩ emptySerde emptyToken.octets = .ok plainHeader ∧
      parseAndVerify .neon ⟨64, by decide⟩ false emptySerde (sevensKey.verifier keyAsMac)
        plainHeader emptyToken.octets unchecked = .ok () := by
  obtain ⟨hheader, message, claimsJson, mac, hclaims, hmac, -, hverify⟩ :=
    parseAndVerify_sign .neon ⟨64, by decide⟩ emptySerde false keyAsMac sevensKey
      (fun json (hjson : emptySerde.headerToString plainHeader = some json) => by
        obtain rfl := Option.some.inj hjson
        exact ⟨⟨by decide, fun _ _ => trivial⟩, by simp [emptySerde]⟩)
      (fun json (hjson : emptySerde.toString () = some json) => by
        obtain rfl := Option.some.inj hjson
        exact ⟨by decide, fun _ _ => trivial⟩)
      (fun _ _ _ _ _ => trivial) emptyToken.length_lt (by rfl)
  obtain rfl := Option.some.inj hclaims
  refine ⟨hheader, ?_⟩
  rw [(hverify sevensKey unchecked (by simp [VerifyOptions.HasClock, unchecked])).2.2 rfl hmac]
  simp [parseClaims, VerifyOptions.checksClaims, unchecked, emptySerde, orInvalidToken]

end

end Stdx.Jwt
