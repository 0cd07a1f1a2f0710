import Stdx.BigNumber.WideWord
import Stdx.Foundation.Numeral
import Stdx.Foundation.Outcome
import Stdx.Foundation.Utf8

/-!
# Radix conversion

`from_str_radix` and `to_string_radix`.  The reader rejects a run of digits too
long for the type before any arithmetic; the bound is exact enough never to
reject a value of the type.
-/

namespace Stdx.BigNumber

open Stdx.Foundation

inductive Error where
  | InvalidRadix
  | InvalidDigit
  | EmptyString
  | Overflow
  deriving DecidableEq, Repr

def digitToChar (digit : UInt64) (upper : Bool) : UInt8 :=
  if digit ≤ 9 then 48 + digit.toUInt8
  else if upper then 65 + (digit.toUInt8 - 10)
  else 97 + (digit.toUInt8 - 10)

def charToDigit (byte : UInt8) : Option UInt32 :=
  if 48 ≤ byte ∧ byte ≤ 57 then some (byte - 48).toUInt32
  else if 97 ≤ byte ∧ byte ≤ 122 then some ((byte - 97).toUInt32 + 10)
  else if 65 ≤ byte ∧ byte ≤ 90 then some ((byte - 65).toUInt32 + 10)
  else none

/-- `(2..=36).contains(&radix)` -/
def validRadix (radix : UInt32) : Bool := 2 ≤ radix && radix ≤ 36

/-- `(63 - (radix as u64).leading_zeros()) as usize` -/
def bitsPerDigit (radix : UInt32) : Nat := 63 - leadingZeros radix.toUInt64

namespace Uint

variable {BITS LIMBS : Nat}

def pushDigit (radix : UInt32) (out : Uint BITS LIMBS) (byte : UInt8) :
    Outcome Error (Uint BITS LIMBS) :=
  match charToDigit byte with
  | none => .err .InvalidDigit
  | some digit =>
    if digit ≥ radix then .err .InvalidDigit
    else
      let (mul, high) := out.mulWord radix.toUInt64
      if high ≠ 0 then .err .Overflow
      else
        match mul.addWord digit.toUInt64 with
        | none => .panic
        | some (next, carry) => if carry ≠ 0 then .err .Overflow else .ok next

def pushDigits (radix : UInt32) (out : Uint BITS LIMBS) :
    Bytes → Outcome Error (Uint BITS LIMBS)
  | [] => .ok out
  | byte :: bytes => do
      let out ← pushDigit radix out byte
      pushDigits radix out bytes

def fromStrRadix (src : String) (radix : UInt32) : Outcome Error (Uint BITS LIMBS) :=
  if !validRadix radix then .err .InvalidRadix
  else if src.isEmpty then .err .EmptyString
  else
    let significant := (utf8 src).dropWhile (· == 48)
    if significant.isEmpty then .ok ZERO
    else if significant.length > BITS / bitsPerDigit radix + 1 then .err .Overflow
    else do
      let out ← pushDigits radix ZERO significant
      if out.bitLen > BITS then .err .Overflow else .ok out

/-- `while !value.is_zero()`; `none` once the fuel is used up. -/
def popDigits (radix : UInt32) : Nat → Bytes → Uint BITS LIMBS → Option Bytes
  | 0, _, _ => none
  | fuel + 1, digits, value =>
    if value.isZero then some digits
    else do
      let (quotient, remainder) ← value.divRemWord radix.toUInt64
      popDigits radix fuel (digits ++ [digitToChar remainder false]) quotient

/-- `none` is the assertion on the radix or octets that are no text. -/
def toStringRadix (x : Uint BITS LIMBS) (radix : UInt32) : Option String :=
  if !validRadix radix then none
  else if x.isZero then some "0"
  else do
    let digits ← popDigits radix (x.bitLen + 1) [] x
    fromUtf8 digits.reverse

end Uint

/-! ## Digits -/

theorem validRadix_iff (radix : UInt32) :
    validRadix radix = true ↔ 2 ≤ radix.toNat ∧ radix.toNat ≤ 36 := by
  rw [validRadix, Bool.and_eq_true, decide_eq_true_iff, decide_eq_true_iff,
    UInt32.le_iff_toNat_le, UInt32.le_iff_toNat_le]
  rfl

theorem bitsPerDigit_eq {radix : UInt32} (h : validRadix radix = true) :
    bitsPerDigit radix = Nat.log2 radix.toNat := by
  obtain ⟨hlow, hhigh⟩ := (validRadix_iff radix).mp h
  have hne : radix.toUInt64 ≠ 0 := fun hzero => by
    have : radix.toUInt64.toNat = 0 := by rw [hzero]; rfl
    rw [UInt32.toNat_toUInt64] at this
    omega
  have hlog : Nat.log2 radix.toNat < 64 :=
    (Nat.log2_lt (by omega)).mpr (lt_of_le_of_lt hhigh (by norm_num))
  rw [bitsPerDigit, leadingZeros, if_neg hne, UInt32.toNat_toUInt64]
  omega

theorem digitToChar_digitChar {n : Nat} (hn : n < 36) :
    DigitChar (digitToChar (UInt64.ofNat n) false) n := by
  unfold DigitChar
  interval_cases n <;> decide

private theorem toNat_sub_toUInt32 {byte low : UInt8} (h : low ≤ byte) :
    (byte - low).toUInt32.toNat = byte.toNat - low.toNat := by
  rw [UInt8.toNat_toUInt32, UInt8.toNat_sub_of_le _ _ h]

private theorem toNat_letter {byte low : UInt8} (h : low ≤ byte) :
    ((byte - low).toUInt32 + 10).toNat = byte.toNat - low.toNat + 10 := by
  have hbyte := byte.toNat_lt
  rw [UInt32.toNat_add, toNat_sub_toUInt32 h]
  exact Nat.mod_eq_of_lt (by
    change byte.toNat - low.toNat + 10 < 2 ^ 32
    omega)

theorem charToDigit_eq_some (byte : UInt8) (digit : UInt32) :
    charToDigit byte = some digit ↔ DigitChar byte digit.toNat := by
  have hbounds : ∀ low high : UInt8, low ≤ byte ∧ byte ≤ high ↔
      low.toNat ≤ byte.toNat ∧ byte.toNat ≤ high.toNat := fun low high => by
    rw [UInt8.le_iff_toNat_le, UInt8.le_iff_toNat_le]
  have h48 : (48 : UInt8).toNat = 48 := rfl
  have h57 : (57 : UInt8).toNat = 57 := rfl
  have h97 : (97 : UInt8).toNat = 97 := rfl
  have h122 : (122 : UInt8).toNat = 122 := rfl
  have h65 : (65 : UInt8).toNat = 65 := rfl
  have h90 : (90 : UInt8).toNat = 90 := rfl
  unfold charToDigit DigitChar
  simp only [hbounds, h48, h57, h97, h122, h65, h90]
  by_cases hdec : 48 ≤ byte.toNat ∧ byte.toNat ≤ 57
  · have hvalue := toNat_sub_toUInt32 (UInt8.le_iff_toNat_le.mpr hdec.1 : (48 : UInt8) ≤ byte)
    rw [if_pos hdec, Option.some_inj, ← UInt32.toNat_inj, hvalue, h48]
    omega
  · rw [if_neg hdec]
    by_cases hlower : 97 ≤ byte.toNat ∧ byte.toNat ≤ 122
    · have hvalue := toNat_letter (UInt8.le_iff_toNat_le.mpr hlower.1 : (97 : UInt8) ≤ byte)
      rw [if_pos hlower, Option.some_inj, ← UInt32.toNat_inj, hvalue, h97]
      omega
    · rw [if_neg hlower]
      by_cases hupper : 65 ≤ byte.toNat ∧ byte.toNat ≤ 90
      · have hvalue := toNat_letter (UInt8.le_iff_toNat_le.mpr hupper.1 : (65 : UInt8) ≤ byte)
        rw [if_pos hupper, Option.some_inj, ← UInt32.toNat_inj, hvalue, h65]
        omega
      · rw [if_neg hupper]
        exact iff_of_false nofun (by omega)

theorem charToDigit_of_digitChar {byte : UInt8} {d : Nat} (h : DigitChar byte d) :
    ∃ digit, charToDigit byte = some digit ∧ digit.toNat = d := by
  have hd : (UInt32.ofNat d).toNat = d := by
    rw [UInt32.toNat_ofNat']
    unfold DigitChar at h
    omega
  refine ⟨UInt32.ofNat d, (charToDigit_eq_some _ _).mpr ?_, hd⟩
  rwa [hd]

namespace Uint

variable {BITS LIMBS : Nat}

/-! ## Reading -/

private theorem carry_eq_zero {low size carry : Nat} (h : low + size * carry < size) :
    carry = 0 := by
  rcases Nat.eq_zero_or_pos carry with hzero | hpos
  · exact hzero
  · have := Nat.le_mul_of_pos_right size hpos
    omega

theorem pushDigit_eq_ok (hlimbs : 1 ≤ LIMBS) (radix : UInt32)
    (out next : Uint BITS LIMBS) (byte : UInt8) :
    pushDigit radix out byte = .ok next ↔
      ∃ d, DigitChar byte d ∧ d < radix.toNat ∧
        next.value = out.value * radix.toNat + d := by
  have hmul := mulWord_value out radix.toUInt64
  rw [UInt32.toNat_toUInt64] at hmul
  constructor
  · intro h
    unfold pushDigit at h
    cases hdigit : charToDigit byte with
    | none => simp [hdigit] at h
    | some digit =>
      rw [hdigit] at h
      simp only at h
      split at h
      · cases h
      · next hlt =>
        split at h
        · cases h
        · next hhigh =>
          obtain ⟨sum, carry, hadd, hvalue⟩ :=
            addWord_value hlimbs (out.mulWord radix.toUInt64).1 digit.toUInt64
          rw [hadd] at h
          simp only at h
          split at h
          · cases h
          · next hcarry =>
            obtain rfl := Outcome.ok.inj h
            rw [not_not.mp hhigh, UInt64.toNat_zero, Nat.mul_zero,
              Nat.add_zero] at hmul
            rw [not_not.mp hcarry, UInt64.toNat_zero, Nat.mul_zero,
              Nat.add_zero, hmul, UInt32.toNat_toUInt64] at hvalue
            refine ⟨digit.toNat, (charToDigit_eq_some _ _).mp hdigit, ?_, hvalue⟩
            exact UInt32.lt_iff_toNat_lt.mp (UInt32.not_le.mp hlt)
  · rintro ⟨d, hchar, hlt, hnext⟩
    obtain ⟨digit, hdigit, rfl⟩ := charToDigit_of_digitChar hchar
    have hsize := value_lt next
    have hpos : 0 < Foundation.radix ^ LIMBS := pow_pos radix_pos LIMBS
    have hhigh : (out.mulWord radix.toUInt64).2 = 0 := by
      apply UInt64.toNat_inj.mp
      exact carry_eq_zero (hmul.trans_lt (by omega))
    obtain ⟨sum, carry, hadd, hvalue⟩ :=
      addWord_value hlimbs (out.mulWord radix.toUInt64).1 digit.toUInt64
    rw [hhigh, UInt64.toNat_zero, Nat.mul_zero, Nat.add_zero] at hmul
    rw [hmul, UInt32.toNat_toUInt64] at hvalue
    have hcarry : carry = 0 := by
      apply UInt64.toNat_inj.mp
      exact carry_eq_zero (hvalue.trans_lt (by omega))
    rw [hcarry, UInt64.toNat_zero, Nat.mul_zero, Nat.add_zero, ← hnext] at hvalue
    have hge : ¬ digit ≥ radix := fun hge => by
      have := UInt32.le_iff_toNat_le.mp hge
      omega
    simp [pushDigit, hdigit, hge, hhigh, hadd, hcarry, value_inj hvalue]

theorem pushDigits_eq_ok (hlimbs : 1 ≤ LIMBS) (radix : UInt32) (bytes : Bytes)
    (out v : Uint BITS LIMBS) (hradix : 1 ≤ radix.toNat) :
    pushDigits radix out bytes = .ok v ↔
      ∃ ds, Spells radix.toNat bytes ds ∧
        v.value = out.value * radix.toNat ^ bytes.length +
          Nat.ofDigits radix.toNat ds.reverse := by
  induction bytes generalizing out with
  | nil =>
    simp only [pushDigits, Outcome.ok.injEq]
    constructor
    · rintro rfl
      exact ⟨[], .nil, by simp⟩
    · rintro ⟨ds, hspell, hvalue⟩
      obtain rfl := hspell.of_nil
      exact (value_inj (by simpa using hvalue)).symm
  | cons byte bytes ih =>
    rw [pushDigits, Outcome.bind_eq_ok]
    constructor
    · rintro ⟨next, hnext, hrest⟩
      obtain ⟨d, hchar, hlt, hstep⟩ :=
        (pushDigit_eq_ok hlimbs radix out next byte).mp hnext
      obtain ⟨ds, hspell, hvalue⟩ := (ih next).mp hrest
      refine ⟨d :: ds, hspell.cons hchar hlt, ?_⟩
      rw [ofDigits_reverse_cons, hspell.length_eq, hvalue, hstep, List.length_cons]
      ring
    · rintro ⟨ds, hspell, hvalue⟩
      obtain ⟨d, ds, rfl, hchar, hlt, hspell⟩ := hspell.uncons
      rw [ofDigits_reverse_cons, hspell.length_eq, List.length_cons] at hvalue
      have hsum : v.value = (out.value * radix.toNat + d) * radix.toNat ^ bytes.length +
          Nat.ofDigits radix.toNat ds.reverse := by
        rw [hvalue]
        ring
      -- A prefix is no larger than the whole, so it is a value of the type.
      have hfits : out.value * radix.toNat + d < Foundation.radix ^ LIMBS :=
        calc out.value * radix.toNat + d
            ≤ (out.value * radix.toNat + d) * radix.toNat ^ bytes.length :=
              Nat.le_mul_of_pos_right _ (pow_pos hradix _)
          _ ≤ v.value := by omega
          _ < Foundation.radix ^ LIMBS := value_lt v
      obtain ⟨next, hnext⟩ := exists_value hfits
      exact ⟨next, (pushDigit_eq_ok hlimbs radix out next byte).mpr
        ⟨d, hchar, hlt, hnext⟩, (ih next).mpr ⟨ds, hspell, by rw [hnext, hsum]⟩⟩

theorem pushDigit_no_limbs (hlimbs : LIMBS = 0) (radix : UInt32)
    (out next : Uint BITS LIMBS) (byte : UInt8) :
    pushDigit radix out byte ≠ .ok next := by
  have hempty : ∀ x : Uint BITS LIMBS, ∀ word, x.addWord word = none := by
    intro x word
    have hlength := x.length_eq
    unfold addWord
    split
    · rfl
    · next limb limbs h =>
      rw [h, List.length_cons] at hlength
      omega
  unfold pushDigit
  split
  · nofun
  · split
    · nofun
    · simp only [hempty]
      split <;> nofun

theorem fromStrRadix_eq_ok (src : String) {radix : UInt32}
    (hradix : validRadix radix = true) (v : Uint BITS LIMBS) :
    fromStrRadix src radix = .ok v ↔
      src ≠ "" ∧ IsNumeral radix.toNat (utf8 src) v.value ∧ v.value < 2 ^ BITS := by
  obtain ⟨hlow, -⟩ := (validRadix_iff radix).mp hradix
  rw [← isNumeral_dropWhile_zero (by omega : 0 < radix.toNat)]
  have hhead : ((utf8 src).dropWhile (· == 48)).head? ≠ some 48 := by
    intro h
    have := List.head?_dropWhile_not (· == (48 : UInt8)) (utf8 src)
    rw [h] at this
    simp at this
  generalize hsig : (utf8 src).dropWhile (· == 48) = significant at hhead ⊢
  rw [fromStrRadix, hradix, hsig]
  simp only [Bool.not_true, Bool.false_eq_true, if_false, String.isEmpty_iff]
  by_cases hempty : src = ""
  · simp [hempty]
  rw [if_neg hempty]
  cases significant with
  | nil =>
    simp only [List.isEmpty_nil, if_true, Outcome.ok.injEq]
    constructor
    · rintro rfl
      exact ⟨hempty, ⟨[], .nil, by simp⟩, by simp⟩
    · rintro ⟨-, ⟨ds, hspell, hvalue⟩, -⟩
      obtain rfl := hspell.of_nil
      have hzero : v.value = 0 := by simpa using hvalue.symm
      exact (value_inj (by rw [hzero, ZERO_value])).symm
  | cons byte bytes =>
    simp only [List.isEmpty_cons, Bool.false_eq_true, if_false, hempty,
      not_false_eq_true, ne_eq, true_and, bitsPerDigit_eq hradix]
    have hrun : pushDigits radix (ZERO : Uint BITS LIMBS) (byte :: bytes) = .ok v ↔
        IsNumeral radix.toNat (byte :: bytes) v.value := by
      rcases Nat.eq_zero_or_pos LIMBS with hlimbs | hlimbs
      · constructor
        · intro h
          obtain ⟨next, hnext, -⟩ := Outcome.bind_eq_ok.mp h
          exact absurd hnext (pushDigit_no_limbs hlimbs radix ZERO next byte)
        · intro h
          have hle := h.pow_le hhead (by simp)
          have hpos : 0 < radix.toNat ^ ((byte :: bytes).length - 1) :=
            pow_pos (by omega) _
          subst hlimbs
          have hlt := value_lt v
          rw [pow_zero] at hlt
          omega
      · rw [pushDigits_eq_ok hlimbs radix _ ZERO v (by omega)]
        simp only [ZERO_value, Nat.zero_mul, Nat.zero_add, IsNumeral]
        exact exists_congr fun ds => and_congr_right fun _ => eq_comm
    constructor
    · intro h
      split at h
      · cases h
      · obtain ⟨out, hout, h⟩ := Outcome.bind_eq_ok.mp h
        split at h
        · cases h
        · next hbits =>
          obtain rfl := Outcome.ok.inj h
          exact ⟨hrun.mp hout, (bitLen_le_iff out BITS).mp (by omega)⟩
    · rintro ⟨hnumeral, hlt⟩
      -- The bound on the length lets every value of the type through.
      have hlength := hnumeral.length_le hhead hlow hlt
      have hbits := (bitLen_le_iff v BITS).mpr hlt
      rw [if_neg (by omega), hrun.mpr hnumeral, Outcome.ok_bind, if_neg (by omega)]

/-! ## Writing -/

theorem popDigits_eq {radix : UInt32} (hradix : validRadix radix = true) (fuel : Nat)
    (digits : Bytes) (x : Uint BITS LIMBS) (hfuel : x.value < 2 ^ fuel) :
    popDigits radix (fuel + 1) digits x =
      some (digits ++ (Nat.digits radix.toNat x.value).map
        fun d => digitToChar (UInt64.ofNat d) false) := by
  obtain ⟨hlow, hhigh⟩ := (validRadix_iff radix).mp hradix
  induction fuel generalizing digits x with
  | zero =>
    have hzero : x.value = 0 := by simpa using hfuel
    rw [popDigits, isZero_eq, decide_eq_true hzero, if_pos rfl, hzero]
    simp
  | succ fuel ih =>
    rw [popDigits, isZero_eq]
    by_cases hzero : x.value = 0
    · rw [decide_eq_true hzero, if_pos rfl, hzero]
      simp
    · have hword : radix.toUInt64 ≠ 0 := fun h => by
        have := congrArg UInt64.toNat h
        rw [UInt32.toNat_toUInt64, UInt64.toNat_zero] at this
        omega
      obtain ⟨q, r, hdiv, hvalue, hlt⟩ := divRemWord_value x hword
      rw [UInt32.toNat_toUInt64] at hvalue hlt
      have hquot : x.value / radix.toNat = q.value := by
        rw [hvalue, Nat.add_comm, Nat.add_mul_div_right _ _ (by omega),
          Nat.div_eq_of_lt hlt, Nat.zero_add]
      have hrem : x.value % radix.toNat = r.toNat := by
        rw [hvalue, Nat.mul_add_mod_self_right, Nat.mod_eq_of_lt hlt]
      have hdigits := Nat.digits_def' (by omega : 1 < radix.toNat)
        (Nat.pos_of_ne_zero hzero)
      rw [hquot, hrem] at hdigits
      have hhalf : q.value < 2 ^ fuel := by
        rw [pow_succ] at hfuel
        have : q.value * 2 ≤ q.value * radix.toNat := Nat.mul_le_mul_left _ hlow
        omega
      rw [decide_eq_false hzero, if_neg (by simp), hdiv]
      change popDigits radix (fuel + 1) _ q = _
      rw [ih _ q hhalf, hdigits, List.map_cons, UInt64.ofNat_toNat,
        List.append_assoc, List.singleton_append]

theorem toStringRadix_eq {radix : UInt32} (hradix : validRadix radix = true)
    (x : Uint BITS LIMBS) :
    ∃ s, x.toStringRadix radix = some s ∧ s ≠ "" ∧
      IsNumeral radix.toNat (utf8 s) x.value := by
  obtain ⟨hlow, hhigh⟩ := (validRadix_iff radix).mp hradix
  rw [toStringRadix, hradix, isZero_eq]
  by_cases hzero : x.value = 0
  · refine ⟨"0", by simp [hzero], by decide, [0], ⟨?_, ?_⟩, ?_⟩
    · exact .cons (.inl ⟨by omega, rfl⟩) .nil
    · intro d hd
      rw [List.mem_singleton.mp hd]
      omega
    · simp [hzero]
  · have hpop := popDigits_eq hradix x.bitLen [] x ((bitLen_le_iff x _).mp le_rfl)
    have hchar : ∀ d, d < radix.toNat →
        DigitChar (digitToChar (UInt64.ofNat d) false) d :=
      fun d hd => digitToChar_digitChar (by omega)
    have hnumeral := isNumeral_digits hlow hchar x.value
    have hascii : ∀ octet ∈ ((Nat.digits radix.toNat x.value).map
        fun d => digitToChar (UInt64.ofNat d) false).reverse, octet.toNat < 128 := by
      intro octet hoctet
      obtain ⟨d, hd, rfl⟩ := List.mem_map.mp (List.mem_reverse.mp hoctet)
      have h := hchar d (Nat.digits_lt_base (by omega) hd)
      unfold DigitChar at h
      omega
    obtain ⟨s, hs⟩ := fromUtf8_of_ascii hascii
    refine ⟨s, ?_, ?_, ?_⟩
    · simp [hzero, hpop, hs]
    · rintro rfl
      have hoctets := utf8_of_fromUtf8 hs
      have hnil : Nat.digits radix.toNat x.value = [] := by
        simpa [utf8] using hoctets.symm
      exact hzero (Nat.digits_eq_nil_iff_eq_zero.mp hnil)
    · rwa [utf8_of_fromUtf8 hs]

theorem radix_conversion_exact {radix : UInt32}
    (hradix : 2 ≤ radix.toNat ∧ radix.toNat ≤ 36) :
    (∀ v : Uint BITS LIMBS, v.value < 2 ^ BITS →
      ∃ s, v.toStringRadix radix = some s ∧ fromStrRadix s radix = .ok v) ∧
    ∀ (s : String) (v : Uint BITS LIMBS), fromStrRadix s radix = .ok v ↔
      s ≠ "" ∧ IsNumeral radix.toNat (utf8 s) v.value ∧ v.value < 2 ^ BITS := by
  have hvalid := (validRadix_iff radix).mpr hradix
  refine ⟨fun v hv => ?_, fun s v => fromStrRadix_eq_ok s hvalid v⟩
  obtain ⟨s, hs, hne, hnumeral⟩ := toStringRadix_eq hvalid v
  exact ⟨s, hs, (fromStrRadix_eq_ok s hvalid v).mpr ⟨hne, hnumeral, hv⟩⟩

/-- A bit width that is no multiple of the limb width. -/
theorem radix_conversion_exact_odd_width :
    ∃ s, (⟨[511], rfl⟩ : Uint 9 1).toStringRadix 36 = some s ∧
      fromStrRadix s 36 = .ok (⟨[511], rfl⟩ : Uint 9 1) :=
  (radix_conversion_exact
    (by decide : 2 ≤ (36 : UInt32).toNat ∧ (36 : UInt32).toNat ≤ 36)).1
    (⟨[511], rfl⟩ : Uint 9 1) (by simp [value])

end Uint

end Stdx.BigNumber
