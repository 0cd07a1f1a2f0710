import Stdx.Hashes.Keccak
import Stdx.Foundation.Outcome
import Mathlib.Data.List.DropRight

/-!
# cSHAKE256 and KMAC256

`crypto/src/sha3/shake256.rs` and `kmac.rs` over the sponge.  The bit lengths of the
strings are `usize` products that are not checked; a build with overflow checks panics
there and any other build wraps.
-/

namespace Stdx.Hashes

open Stdx.Foundation

def SHAKE256_RATE : Nat := 136
def CSHAKE256_DOMAIN_SEPARATOR : UInt8 := 0x04
def SHAKE256_DOMAIN_SEPARATOR : UInt8 := 0x1f
def KMAC256_RATE : Nat := 136

structure Build where
  target : Target
  overflowChecks : Bool

/-- The value of a `usize` sum or product that is `n`; `none` is a panic. -/
def Build.usize (b : Build) (n : Nat) : Option Nat :=
  if n < 2 ^ b.target.usizeBits then some n
  else if b.overflowChecks then none
  else some (n % 2 ^ b.target.usizeBits)

/-- `x.to_be_bytes()` of a `usize` -/
def usizeBytes (T : Target) (x : Nat) : Bytes := fixedOctets ((T.usizeBits + 7) / 8) x

def leftEncode (T : Target) (x : Nat) : Option (BoundedBytes 9) := do
  let bytes := usizeBytes T x
  let firstNonZero := (bytes.findIdx? (· != 0)).getD (bytes.length - 1)
  let n := bytes.length - firstNonZero
  let out ← BoundedBytes.new.push (UInt8.ofNat n)
  out.append (bytes.drop firstNonZero)

def rightEncode (T : Target) (x : Nat) : Option Bytes := do
  let bytes ← leftEncode T x
  let out := bytes.octets
  let n := out.getD 0 0
  let out := out.set 0 (out.getD 1 0)
  let out := (List.range' 1 (n.toNat - 1)).foldl (fun out i => out.set i (out.getD (i + 1) 0)) out
  some (out.set n.toNat n)

section

variable (b : Build) (permute : State → State)

def absorbPad (s : KeccakSponge) (w total : Nat) : Option KeccakSponge :=
  let pad := (w - total % w) % w
  if pad > 0 then s.absorb permute (List.replicate pad 0) else some s

def CShake256.new (functionName customization : Bytes) : Option KeccakSponge :=
  if functionName = [] ∧ customization = [] then
    some (KeccakSponge.new SHAKE256_RATE SHAKE256_DOMAIN_SEPARATOR)
  else do
    let keccak := KeccakSponge.new SHAKE256_RATE CSHAKE256_DOMAIN_SEPARATOR
    let encW ← leftEncode b.target SHAKE256_RATE
    let encN ← leftEncode b.target (← b.usize (functionName.length * 8))
    let encS ← leftEncode b.target (← b.usize (customization.length * 8))
    let keccak ← keccak.absorbs permute
      [encW.octets, encN.octets, functionName, encS.octets, customization]
    let total ← b.usize (encW.octets.length + encN.octets.length + functionName.length +
      encS.octets.length + customization.length)
    absorbPad permute keccak SHAKE256_RATE total

def KMAC : Bytes := [0x4b, 0x4d, 0x41, 0x43]

def Kmac256.new (key customization : Bytes) : Option KeccakSponge := do
  let cshake ← CShake256.new b permute KMAC customization
  let encW ← leftEncode b.target KMAC256_RATE
  let encKey ← leftEncode b.target (← b.usize (key.length * 8))
  let cshake ← cshake.absorbs permute [encW.octets, encKey.octets, key]
  let total ← b.usize (encW.octets.length + encKey.octets.length + key.length)
  absorbPad permute cshake KMAC256_RATE total

def outputBits (count : Nat) : Option Nat :=
  if count * 8 < 2 ^ b.target.usizeBits then some (count * 8) else none

def Kmac256.finalizeInto (s : KeccakSponge) (count : Nat) : Option (Bytes × KeccakSponge) := do
  let encodedOutputLen ← rightEncode b.target (← outputBits b count)
  let s ← s.absorb permute encodedOutputLen
  s.squeeze permute count

/-! ## What is absorbed -/

def encodeString (s : Bytes) : Option Bytes := do
  let encoded ← leftEncode b.target (← b.usize (s.length * 8))
  some (encoded.octets ++ s)

def bytepad (x : Bytes) (w : Nat) : Option Bytes := do
  let encoded ← leftEncode b.target w
  let total ← b.usize (encoded.octets.length + x.length)
  some (encoded.octets ++ x ++ List.replicate ((w - total % w) % w) 0)

structure CShakeArgs where
  functionName : Bytes
  customization : Bytes
  message : Bytes

structure KmacArgs where
  key : Bytes
  customization : Bytes
  message : Bytes
  outputLen : Nat

def cshakeInput (args : CShakeArgs) : Option (UInt8 × Bytes) :=
  if args.functionName = [] ∧ args.customization = [] then
    some (SHAKE256_DOMAIN_SEPARATOR, args.message)
  else do
    let encN ← encodeString b args.functionName
    let encS ← encodeString b args.customization
    let front ← bytepad b (encN ++ encS) SHAKE256_RATE
    some (CSHAKE256_DOMAIN_SEPARATOR, front ++ args.message)

def kmacInput (args : KmacArgs) : Option (UInt8 × Bytes) := do
  let encKey ← encodeString b args.key
  let keyBlocks ← bytepad b encKey KMAC256_RATE
  let suffix ← rightEncode b.target (← outputBits b args.outputLen)
  cshakeInput b ⟨KMAC, args.customization, keyBlocks ++ args.message ++ suffix⟩

end

/-! ## Streaming -/

section

variable {b : Build} {permute : State → State}

theorem absorbPad_holds {s : KeccakSponge} {delimiter : UInt8} {message whole tail : Bytes}
    (h : s.Absorbs permute 136 delimiter message whole tail) (w total : Nat) :
    ∃ s' whole' tail', absorbPad permute s w total = some s' ∧
      s'.Absorbs permute 136 delimiter
        (message ++ List.replicate ((w - total % w) % w) 0) whole' tail' := by
  rw [absorbPad]
  split
  · exact KeccakSponge.absorb_holds (by decide) (by decide) h _
  · next hzero =>
    have hnone : (w - total % w) % w = 0 := by omega
    rw [hnone, List.replicate_zero, List.append_nil]
    exact ⟨s, whole, tail, rfl, h⟩

theorem cshakeInput_append (functionName customization message : Bytes) :
    cshakeInput b ⟨functionName, customization, message⟩ =
      (cshakeInput b ⟨functionName, customization, []⟩).map
        fun input => (input.1, input.2 ++ message) := by
  rw [cshakeInput, cshakeInput]
  split
  · simp
  · simp only [Option.bind_eq_bind]
    cases encodeString b functionName with
    | none => rfl
    | some encN =>
      cases encodeString b customization with
      | none => rfl
      | some encS => cases bytepad b (encN ++ encS) SHAKE256_RATE <;> simp

theorem cshakeNew_holds (functionName customization : Bytes) :
    (cshakeInput b ⟨functionName, customization, []⟩ = none ∧
      CShake256.new b permute functionName customization = none) ∨
    ∃ delimiter front s whole tail,
      cshakeInput b ⟨functionName, customization, []⟩ = some (delimiter, front) ∧
      CShake256.new b permute functionName customization = some s ∧
      s.Absorbs permute 136 delimiter front whole tail := by
  by_cases hempty : functionName = [] ∧ customization = []
  · refine Or.inr ⟨SHAKE256_DOMAIN_SEPARATOR, [], _, [], [], ?_, ?_,
      KeccakSponge.absorbs_new (by decide)⟩
    · rw [cshakeInput, if_pos hempty]
    · rw [CShake256.new, if_pos hempty]
      rfl
  rw [cshakeInput, if_neg hempty, CShake256.new, if_neg hempty]
  simp only [encodeString, bytepad, Option.bind_eq_bind, Option.bind_assoc]
  cases hW : leftEncode b.target SHAKE256_RATE with
  | none => exact Or.inl (by simp)
  | some encW =>
  cases hn : b.usize (functionName.length * 8) with
  | none => exact Or.inl (by simp)
  | some n =>
  cases hN : leftEncode b.target n with
  | none => exact Or.inl (by simp [hN])
  | some encN =>
  cases hs : b.usize (customization.length * 8) with
  | none => exact Or.inl (by simp)
  | some m =>
  cases hS : leftEncode b.target m with
  | none => exact Or.inl (by simp [hS])
  | some encS =>
    obtain ⟨s, whole, tail, habsorbs, hs⟩ := KeccakSponge.absorbs_holds (r := 136) (by decide)
      (by decide) [encW.octets, encN.octets, functionName, encS.octets, customization]
      (@KeccakSponge.absorbs_new permute 136 CSHAKE256_DOMAIN_SEPARATOR (by decide))
    have hlength : encW.octets.length + (encN.octets ++ functionName ++
        (encS.octets ++ customization)).length = encW.octets.length + encN.octets.length +
        functionName.length + encS.octets.length + customization.length := by
      simp only [List.length_append]
      omega
    have hfront : [] ++ [encW.octets, encN.octets, functionName, encS.octets,
        customization].flatten =
        encW.octets ++ (encN.octets ++ functionName ++ (encS.octets ++ customization)) := by
      simp
    rw [hfront] at hs
    have hnew : KeccakSponge.new SHAKE256_RATE CSHAKE256_DOMAIN_SEPARATOR =
        KeccakSponge.new 136 CSHAKE256_DOMAIN_SEPARATOR := rfl
    simp only [hN, hS, Option.bind_some, hlength, hnew, habsorbs]
    cases ht : b.usize (encW.octets.length + encN.octets.length + functionName.length +
      encS.octets.length + customization.length) with
    | none => exact Or.inl (by simp)
    | some total =>
      obtain ⟨last, whole', tail', hpad, hlast⟩ := absorbPad_holds hs SHAKE256_RATE total
      exact Or.inr ⟨_, _, last, whole', tail', by simp, by simpa using hpad, hlast⟩

theorem kmacNew_holds (key customization : Bytes) :
    (((encodeString b key).bind (bytepad b · KMAC256_RATE) = none ∨
        cshakeInput b ⟨KMAC, customization, []⟩ = none) ∧
      Kmac256.new b permute key customization = none) ∨
    ∃ delimiter front keyBlocks s whole tail,
      cshakeInput b ⟨KMAC, customization, []⟩ = some (delimiter, front) ∧
      (encodeString b key).bind (bytepad b · KMAC256_RATE) = some keyBlocks ∧
      Kmac256.new b permute key customization = some s ∧
      s.Absorbs permute 136 delimiter (front ++ keyBlocks) whole tail := by
  rcases @cshakeNew_holds b permute KMAC customization with
    ⟨hinput, hnone⟩ | ⟨delimiter, front, s, whole, tail, hinput, hnew, hs⟩
  · refine Or.inl ⟨Or.inr hinput, ?_⟩
    rw [Kmac256.new, hnone]
    rfl
  simp only [Kmac256.new, hnew, encodeString, bytepad, Option.bind_eq_bind, Option.bind_some]
  cases hk : b.usize (key.length * 8) with
  | none => exact Or.inl ⟨Or.inl (by simp), by simp⟩
  | some n =>
  cases hK : leftEncode b.target n with
  | none => exact Or.inl ⟨Or.inl (by simp [hK]), by simp [hK]⟩
  | some encKey =>
  cases hW : leftEncode b.target KMAC256_RATE with
  | none => exact Or.inl ⟨Or.inl (by simp [hK]), by simp⟩
  | some encW =>
    obtain ⟨next, whole', tail', habsorbs, hnext⟩ := KeccakSponge.absorbs_holds (by decide)
      (by decide) [encW.octets, encKey.octets, key] hs
    have hlength : encW.octets.length + (encKey.octets ++ key).length =
        encW.octets.length + encKey.octets.length + key.length := by
      rw [List.length_append, Nat.add_assoc]
    have hfront : front ++ [encW.octets, encKey.octets, key].flatten =
        front ++ (encW.octets ++ (encKey.octets ++ key)) := by
      simp
    rw [hfront] at hnext
    simp only [hK, Option.bind_some, hlength, habsorbs]
    cases ht : b.usize (encW.octets.length + encKey.octets.length + key.length) with
    | none => exact Or.inl ⟨Or.inl (by simp), by simp⟩
    | some total =>
      obtain ⟨last, whole'', tail'', hpad, hlast⟩ := absorbPad_holds hnext KMAC256_RATE total
      refine Or.inr ⟨delimiter, front, encW.octets ++ (encKey.octets ++ key) ++
        List.replicate ((KMAC256_RATE - total % KMAC256_RATE) % KMAC256_RATE) 0, last,
        whole'', tail'', hinput, ?_, by simpa using hpad, ?_⟩
      · rw [Option.bind_some]
      · rwa [List.append_assoc front] at hlast

def cshakeRun (b : Build) (permute : State → State) (functionName customization : Bytes)
    (parts : List Bytes) (counts : List Nat) : Option (List Bytes × KeccakSponge) :=
  (CShake256.new b permute functionName customization).bind fun s =>
    (s.absorbs permute parts).bind fun s => s.squeezes permute counts

def kmacRun (b : Build) (permute : State → State) (key customization : Bytes)
    (parts : List Bytes) (count : Nat) : Option (Bytes × KeccakSponge) :=
  (Kmac256.new b permute key customization).bind fun s =>
    (s.absorbs permute parts).bind fun s => Kmac256.finalizeInto b permute s count

theorem squeezes_sponge {s : KeccakSponge} {delimiter : UInt8} {message whole tail : Bytes}
    (h : s.Absorbs permute 136 delimiter message whole tail) (counts : List Nat) :
    (s.squeezes permute counts).map (fun out => out.1.flatten) =
      some (sponge permute 136 delimiter message counts.sum) := by
  obtain ⟨outs, last, hsqueezes, hflatten, -, -⟩ := KeccakSponge.squeezes_holds (by decide)
    (by decide) counts (Or.inl ⟨whole, tail, h, rfl⟩)
  rw [hsqueezes, Option.map_some, hflatten, sponge, squeezed_eq permute (by decide) (by decide)]

theorem cshake_streams (functionName customization : Bytes) (parts : List Bytes)
    (counts : List Nat) :
    (cshakeRun b permute functionName customization parts counts).map
        (fun out => out.1.flatten) =
      (cshakeInput b ⟨functionName, customization, parts.flatten⟩).map
        fun input => sponge permute 136 input.1 input.2 counts.sum := by
  rw [cshakeInput_append]
  rcases @cshakeNew_holds b permute functionName customization with
    ⟨hinput, hnone⟩ | ⟨delimiter, front, s, whole, tail, hinput, hnew, hs⟩
  · rw [cshakeRun, hnone, hinput]
    rfl
  · obtain ⟨mid, whole', tail', habsorbs, hmid⟩ :=
      KeccakSponge.absorbs_holds (by decide) (by decide) parts hs
    rw [cshakeRun, hnew, Option.bind_some, habsorbs, Option.bind_some, squeezes_sponge hmid,
      hinput]
    rfl

theorem kmacInput_eq (args : KmacArgs) :
    kmacInput b args = ((encodeString b args.key).bind (bytepad b · KMAC256_RATE)).bind
      fun keyBlocks => ((outputBits b args.outputLen).bind (rightEncode b.target)).bind
        fun suffix => (cshakeInput b ⟨KMAC, args.customization, []⟩).map
          fun input => (input.1, input.2 ++ (keyBlocks ++ args.message ++ suffix)) := by
  simp only [kmacInput, Option.bind_eq_bind, Option.bind_assoc]
  congr 1
  funext encKey
  congr 1
  funext keyBlocks
  congr 1
  funext bits
  congr 1
  funext suffix
  exact cshakeInput_append KMAC args.customization _

theorem finalizeInto_eq (s : KeccakSponge) (count : Nat) :
    Kmac256.finalizeInto b permute s count =
      ((outputBits b count).bind (rightEncode b.target)).bind fun suffix =>
        (s.absorb permute suffix).bind fun s => s.squeeze permute count := by
  simp only [Kmac256.finalizeInto, Option.bind_eq_bind, Option.bind_assoc]

theorem kmac_streams (key customization : Bytes) (parts : List Bytes) (count : Nat) :
    (kmacRun b permute key customization parts count).map Prod.fst =
      (kmacInput b ⟨key, customization, parts.flatten, count⟩).map
        fun input => sponge permute 136 input.1 input.2 count := by
  rw [kmacInput_eq]
  rcases @kmacNew_holds b permute key customization with
    ⟨hinput, hnone⟩ | ⟨delimiter, front, keyBlocks, s, whole, tail, hinput, hkey, hnew, hs⟩
  · rw [kmacRun, hnone, Option.bind_none, Option.map_none]
    symm
    rcases hinput with hkey | hinput
    · rw [hkey]
      rfl
    · simp [hinput]
  · obtain ⟨mid, whole', tail', habsorbs, hmid⟩ :=
      KeccakSponge.absorbs_holds (by decide) (by decide) parts hs
    rw [kmacRun, hnew, Option.bind_some, habsorbs, Option.bind_some, finalizeInto_eq, hkey,
      Option.bind_some, hinput]
    cases (outputBits b count).bind (rightEncode b.target) with
    | none => rfl
    | some suffix =>
      obtain ⟨last, whole'', tail'', habsorb, hlast⟩ :=
        KeccakSponge.absorb_holds (by decide) (by decide) hmid suffix
      obtain ⟨done, hsqueeze, -⟩ := KeccakSponge.squeeze_holds (by decide) (by decide)
        (Or.inl ⟨whole'', tail'', hlast, rfl⟩) count
      have hmessage : front ++ keyBlocks ++ parts.flatten ++ suffix =
          front ++ (keyBlocks ++ parts.flatten ++ suffix) := by
        simp only [List.append_assoc]
      rw [Option.bind_some, habsorb, Option.bind_some, hsqueeze, Option.map_some, hmessage,
        Option.bind_some, Option.map_some, Option.map_some, sponge,
        squeezed_eq permute (by decide) (by decide)]

end

/-! ## The encodings -/

variable {T : Target}

theorem usizeBytes_value {x : Nat} (h : x < 2 ^ T.usizeBits) : beValue (usizeBytes T x) = x := by
  have hpow : 2 ^ T.usizeBits ≤ 256 ^ ((T.usizeBits + 7) / 8) := by
    calc 2 ^ T.usizeBits ≤ 2 ^ (8 * ((T.usizeBits + 7) / 8)) :=
          Nat.pow_le_pow_right (by decide) (by omega)
      _ = 256 ^ ((T.usizeBits + 7) / 8) := by rw [pow_mul]; norm_num
  rw [usizeBytes, beValue_fixedOctets, Nat.mod_eq_of_lt (by omega)]

theorem beValue_drop_zeros (octets : Bytes) (hne : octets ≠ []) :
    beValue (octets.drop ((octets.findIdx? (· != 0)).getD (octets.length - 1))) =
      beValue octets ∧
    (octets.findIdx? (· != 0)).getD (octets.length - 1) < octets.length := by
  induction octets with
  | nil => exact absurd rfl hne
  | cons octet octets ih =>
    by_cases hzero : octet = 0
    · by_cases hlast : octets = []
      · subst hlast hzero
        exact ⟨rfl, by simp⟩
      · obtain ⟨hvalue, hlt⟩ := ih hlast
        have hpos := List.length_pos_iff.mpr hlast
        have hindex : ((octet :: octets).findIdx? (· != 0)).getD
            ((octet :: octets).length - 1) =
            (octets.findIdx? (· != 0)).getD (octets.length - 1) + 1 := by
          rw [List.findIdx?_cons, hzero]
          cases octets.findIdx? (· != 0) with
          | none => simp; omega
          | some i => simp
        rw [hindex, List.drop_succ_cons, hvalue, beValue_cons, hzero]
        exact ⟨by simp, by rw [List.length_cons]; omega⟩
    · have hindex : ((octet :: octets).findIdx? (· != 0)) = some 0 := by
        rw [List.findIdx?_cons]
        simp [hzero]
      rw [hindex]
      exact ⟨rfl, by simp⟩

theorem leftEncode_spec {x : Nat} (hx : x < 2 ^ T.usizeBits) {encoded : BoundedBytes 9}
    (h : leftEncode T x = some encoded) :
    ∃ digits, encoded.octets = UInt8.ofNat digits.length :: digits ∧ 0 < digits.length ∧
      digits.length ≤ 8 ∧ beValue digits = x := by
  have hne : usizeBytes T x ≠ [] := by
    have hwide := T.wide
    intro hnil
    have hlength := congrArg List.length hnil
    rw [usizeBytes, fixedOctets_length, List.length_nil] at hlength
    omega
  obtain ⟨hvalue, hlt⟩ := beValue_drop_zeros (usizeBytes T x) hne
  rw [usizeBytes_value hx] at hvalue
  simp only [leftEncode, Option.bind_eq_bind] at h
  obtain ⟨out, hpush, happend⟩ := Option.bind_eq_some_iff.mp h
  have hout := BoundedBytes.append_octets hpush
  have hencoded := BoundedBytes.append_octets happend
  have hlength := encoded.length_le
  refine ⟨_, ?_, ?_, ?_, hvalue⟩
  · rw [hencoded, hout, List.length_drop]
    rfl
  · rw [List.length_drop]
    omega
  · rw [hencoded, hout, List.length_append] at hlength
    simp [BoundedBytes.new] at hlength
    simp
    omega

theorem shift_step (digits : Bytes) {k : Nat} (hk : k < digits.length) (hole : UInt8) :
    ∃ hole', (digits.take k ++ hole :: digits.drop k).set k
        ((digits.take k ++ hole :: digits.drop k).getD (k + 1) 0) =
      digits.take (k + 1) ++ hole' :: digits.drop (k + 1) := by
  have hlength : (digits.take k).length = k := by
    rw [List.length_take]
    omega
  have hdrop : digits.drop k = digits[k] :: digits.drop (k + 1) := List.drop_eq_getElem_cons hk
  have hnext : (digits.take k ++ hole :: digits.drop k).getD (k + 1) 0 = digits[k] := by
    rw [List.getD_append_right _ _ _ _ (by omega), hlength, Nat.add_sub_cancel_left, hdrop]
    rfl
  refine ⟨digits[k], ?_⟩
  rw [hnext, List.set_append_right _ _ (by omega), hlength, Nat.sub_self, List.set_cons_zero,
    ← hdrop, ← List.take_append_getElem hk, List.append_assoc]
  rfl

theorem shift_loop (digits : Bytes) (m : Nat) :
    ∀ {k : Nat}, k + m ≤ digits.length → ∀ hole, ∃ hole',
      (List.range' k m).foldl (fun out i => out.set i (out.getD (i + 1) 0))
        (digits.take k ++ hole :: digits.drop k) =
      digits.take (k + m) ++ hole' :: digits.drop (k + m) := by
  induction m with
  | zero => exact fun _ hole => ⟨hole, rfl⟩
  | succ m ih =>
    intro k hk hole
    obtain ⟨hole', hstep⟩ := shift_step digits (by omega : k < digits.length) hole
    obtain ⟨hole'', hrest⟩ := ih (by omega : k + 1 + m ≤ digits.length) hole'
    refine ⟨hole'', ?_⟩
    rw [List.range'_succ, List.foldl_cons, hstep, hrest, Nat.add_assoc, Nat.add_comm 1 m]

theorem rightEncode_spec {x : Nat} (hx : x < 2 ^ T.usizeBits) {encoded : Bytes}
    (h : rightEncode T x = some encoded) :
    ∃ digits, encoded = digits ++ [UInt8.ofNat digits.length] ∧ 0 < digits.length ∧
      digits.length ≤ 8 ∧ beValue digits = x := by
  simp only [rightEncode, Option.bind_eq_bind] at h
  obtain ⟨left, hleft, h⟩ := Option.bind_eq_some_iff.mp h
  obtain ⟨digits, hoctets, hpos, hle, hvalue⟩ := leftEncode_spec hx hleft
  refine ⟨digits, ?_, hpos, hle, hvalue⟩
  have hn : (UInt8.ofNat digits.length).toNat = digits.length := by
    rw [UInt8.toNat_ofNat']
    omega
  have hhead : left.octets.getD 0 0 = UInt8.ofNat digits.length := by
    rw [hoctets]
    rfl
  obtain ⟨hole, hfirst⟩ := shift_step digits hpos (UInt8.ofNat digits.length)
  obtain ⟨hole', hloop⟩ := shift_loop digits (digits.length - 1)
    (by omega : 1 + (digits.length - 1) ≤ digits.length) hole
  have hall : 1 + (digits.length - 1) = digits.length := by omega
  simp only [List.take_zero, List.nil_append, List.drop_zero, Nat.zero_add] at hfirst
  rw [hall, List.take_length, List.drop_length] at hloop
  rw [hhead, hn, hoctets, hfirst, hloop, List.set_append_right _ _ (Nat.le_refl _),
    Nat.sub_self] at h
  exact (Option.some_inj.mp h).symm

theorem length_octet_inj {a b : Nat} (ha : a ≤ 8) (hb : b ≤ 8)
    (h : UInt8.ofNat a = UInt8.ofNat b) : a = b := by
  have hnat := congrArg UInt8.toNat h
  rw [UInt8.toNat_ofNat', UInt8.toNat_ofNat'] at hnat
  omega

theorem leftEncode_prefix {x y : Nat} (hx : x < 2 ^ T.usizeBits) (hy : y < 2 ^ T.usizeBits)
    {e e' : BoundedBytes 9} (he : leftEncode T x = some e) (he' : leftEncode T y = some e')
    {rest rest' : Bytes} (h : e.octets ++ rest = e'.octets ++ rest') : x = y ∧ rest = rest' := by
  obtain ⟨digits, hoctets, _, hle, hvalue⟩ := leftEncode_spec hx he
  obtain ⟨digits', hoctets', _, hle', hvalue'⟩ := leftEncode_spec hy he'
  rw [hoctets, hoctets', List.cons_append, List.cons_append] at h
  obtain ⟨hhead, htail⟩ := List.cons_eq_cons.mp h
  obtain ⟨hdigits, hrest⟩ := List.append_inj htail (length_octet_inj hle hle' hhead)
  exact ⟨by rw [← hvalue, ← hvalue', hdigits], hrest⟩

theorem rightEncode_suffix {x y : Nat} (hx : x < 2 ^ T.usizeBits) (hy : y < 2 ^ T.usizeBits)
    {e e' : Bytes} (he : rightEncode T x = some e) (he' : rightEncode T y = some e')
    {front front' : Bytes} (h : front ++ e = front' ++ e') : x = y ∧ front = front' := by
  obtain ⟨digits, rfl, _, hle, hvalue⟩ := rightEncode_spec hx he
  obtain ⟨digits', rfl, _, hle', hvalue'⟩ := rightEncode_spec hy he'
  rw [← List.append_assoc, ← List.append_assoc] at h
  obtain ⟨hfront, hlast⟩ := List.append_inj' h rfl
  have hlength := length_octet_inj hle hle' (List.singleton_inj.mp hlast)
  obtain ⟨hfront, hdigits⟩ := List.append_inj' hfront hlength
  exact ⟨by rw [← hvalue, ← hvalue', hdigits], hfront⟩

/-! ## Padding -/

theorem rdropWhile_zeros {octet : UInt8} (h : octet ≠ 0) (front : Bytes) (count : Nat) :
    (front ++ [octet] ++ List.replicate count 0).rdropWhile (· == 0) = front ++ [octet] := by
  induction count with
  | zero =>
    rw [List.replicate_zero, List.append_nil, List.rdropWhile_concat_neg _ _ _ (by simpa using h)]
  | succ count ih =>
    rw [List.replicate_succ', ← List.append_assoc,
      List.rdropWhile_concat_pos _ _ _ (by decide), ih]

/-- The delimiter and the final bit end a message wherever it ends in its block. -/
theorem domainPad_suffix {delimiter delimiter' : UInt8} (h : delimiter ≠ 0)
    (h' : delimiter' ≠ 0) {q q' : Nat} {front front' : Bytes}
    (heq : front ++ domainPad delimiter q = front' ++ domainPad delimiter' q') :
    delimiter = delimiter' ∧ front = front' := by
  have hflip : ∀ {a : UInt8}, a ^^^ 0x80 = 0x80 → a = 0 := by
    intro a ha
    have := congrArg (· ^^^ (0x80 : UInt8)) ha
    simpa [UInt8.xor_assoc] using this
  rw [domainPad, domainPad] at heq
  split at heq <;> split at heq
  · obtain ⟨hfront, hlast⟩ := List.append_inj' heq rfl
    have hxor := congrArg (· ^^^ (0x80 : UInt8)) (List.singleton_inj.mp hlast)
    exact ⟨by simpa [UInt8.xor_assoc] using hxor, hfront⟩
  · rw [← List.append_assoc] at heq
    have hlast := (List.append_inj' heq rfl).2
    exact absurd (hflip (List.singleton_inj.mp hlast)) h
  · rw [← List.append_assoc] at heq
    have hlast := (List.append_inj' heq rfl).2
    exact absurd (hflip (List.singleton_inj.mp hlast).symm) h'
  · rw [← List.append_assoc, ← List.append_assoc] at heq
    have hfront := (List.append_inj' heq rfl).1
    have hdrop := congrArg (List.rdropWhile (· == 0)) hfront
    rw [List.append_cons front, List.append_cons front', rdropWhile_zeros h,
      rdropWhile_zeros h'] at hdrop
    obtain ⟨hfront, hdelimiter⟩ := List.append_inj' hdrop rfl
    exact ⟨List.singleton_inj.mp hdelimiter, hfront⟩

/-! ## What the absorbed octets determine -/

def cshakeAbsorbed (b : Build) (args : CShakeArgs) : Option Bytes :=
  (cshakeInput b args).map fun input => padded SHAKE256_RATE input.1 input.2

def kmacAbsorbed (b : Build) (args : KmacArgs) : Option Bytes :=
  (kmacInput b args).map fun input => padded SHAKE256_RATE input.1 input.2

/-- No two calls whose strings have at most `limit` octets absorb the same. -/
def Determined (b : Build) (limit : Nat) : Prop :=
  (∀ x y : CShakeArgs, x.functionName.length ≤ limit → x.customization.length ≤ limit →
    y.functionName.length ≤ limit → y.customization.length ≤ limit →
    ∀ octets, cshakeAbsorbed b x = some octets → cshakeAbsorbed b y = some octets → x = y) ∧
  (∀ x y : KmacArgs, x.key.length ≤ limit → x.customization.length ≤ limit →
    y.key.length ≤ limit → y.customization.length ≤ limit →
    ∀ octets, kmacAbsorbed b x = some octets → kmacAbsorbed b y = some octets → x = y)

variable {b : Build}

theorem usize_eq {limit n m : Nat}
    (hlimit : b.overflowChecks = true ∨ limit * 8 < 2 ^ b.target.usizeBits)
    (hn : n ≤ limit) (h : b.usize (n * 8) = some m) :
    m = n * 8 ∧ n * 8 < 2 ^ b.target.usizeBits := by
  rw [Build.usize] at h
  split at h
  · next hlt => exact ⟨(Option.some_inj.mp h).symm, hlt⟩
  · next hge =>
    rcases hlimit with hchecks | hlimit
    · rw [if_pos hchecks] at h
      exact absurd h (by simp)
    · omega

theorem encodeString_prefixFree {limit : Nat}
    (hlimit : b.overflowChecks = true ∨ limit * 8 < 2 ^ b.target.usizeBits)
    {s s' e e' rest rest' : Bytes} (hs : s.length ≤ limit) (hs' : s'.length ≤ limit)
    (he : encodeString b s = some e) (he' : encodeString b s' = some e')
    (h : e ++ rest = e' ++ rest') : s = s' ∧ e = e' ∧ rest = rest' := by
  simp only [encodeString, Option.bind_eq_bind, Option.bind_eq_some_iff] at he he'
  obtain ⟨n, hn, left, hleft, hoctets⟩ := he
  obtain ⟨n', hn', left', hleft', hoctets'⟩ := he'
  obtain ⟨hlength, hlt⟩ := usize_eq hlimit hs hn
  obtain ⟨hlength', hlt'⟩ := usize_eq hlimit hs' hn'
  have hall := h
  rw [← Option.some_inj.mp hoctets, ← Option.some_inj.mp hoctets', List.append_assoc,
    List.append_assoc] at hall
  obtain ⟨hbits, htail⟩ := leftEncode_prefix (hlength ▸ hlt) (hlength' ▸ hlt') hleft hleft' hall
  obtain ⟨hstring, hlast⟩ := List.append_inj htail (by omega)
  rw [hlast] at h
  exact ⟨hstring, List.append_cancel_right h, hlast⟩

theorem bytepad_prefix {x x' p p' rest rest' : Bytes} {w : Nat} (hp : bytepad b x w = some p)
    (hp' : bytepad b x' w = some p')
    (hhead : ∀ t t', x ++ t = x' ++ t' → x = x') (h : p ++ rest = p' ++ rest') :
    x = x' ∧ rest = rest' := by
  have hx : x = x' := by
    simp only [bytepad, Option.bind_eq_bind, Option.bind_eq_some_iff] at hp hp'
    obtain ⟨left, hleft, _, _, hp⟩ := hp
    obtain ⟨left', hleft', _, _, hp'⟩ := hp'
    obtain rfl := Option.some_inj.mp (hleft.symm.trans hleft')
    rw [← Option.some_inj.mp hp, ← Option.some_inj.mp hp'] at h
    simp only [List.append_assoc] at h
    exact hhead _ _ (List.append_cancel_left h)
  subst hx
  rw [hp] at hp'
  rw [Option.some_inj.mp hp'] at h
  exact ⟨rfl, List.append_cancel_left h⟩

theorem cshakeInput_inj {limit : Nat}
    (hlimit : b.overflowChecks = true ∨ limit * 8 < 2 ^ b.target.usizeBits)
    {x y : CShakeArgs} (hxn : x.functionName.length ≤ limit)
    (hxs : x.customization.length ≤ limit) (hyn : y.functionName.length ≤ limit)
    (hys : y.customization.length ≤ limit) {input : UInt8 × Bytes}
    (hx : cshakeInput b x = some input) (hy : cshakeInput b y = some input) : x = y := by
  rw [cshakeInput] at hx hy
  split at hx <;> split at hy
  · next hxe hye =>
    rw [← Option.some_inj.mp hx, Option.some_inj] at hy
    obtain ⟨xn, xs, xm⟩ := x
    obtain ⟨yn, ys, ym⟩ := y
    simp only at hxe hye
    rw [CShakeArgs.mk.injEq, hxe.1, hxe.2, hye.1, hye.2]
    exact ⟨rfl, rfl, (Prod.mk.inj hy).2.symm⟩
  · simp only [Option.bind_eq_bind, Option.bind_eq_some_iff] at hy
    obtain ⟨_, _, _, _, _, _, hy⟩ := hy
    rw [← Option.some_inj.mp hx, Option.some_inj] at hy
    exact absurd (Prod.mk.inj hy).1 (by decide)
  · simp only [Option.bind_eq_bind, Option.bind_eq_some_iff] at hx
    obtain ⟨_, _, _, _, _, _, hx⟩ := hx
    rw [← Option.some_inj.mp hx, Option.some_inj] at hy
    exact absurd (Prod.mk.inj hy).1 (by decide)
  · simp only [Option.bind_eq_bind, Option.bind_eq_some_iff] at hx hy
    obtain ⟨encN, hN, encS, hS, front, hfront, hx⟩ := hx
    obtain ⟨encN', hN', encS', hS', front', hfront', hy⟩ := hy
    rw [← Option.some_inj.mp hx, Option.some_inj] at hy
    have htail := (Prod.mk.inj hy).2
    have hhead : ∀ t t', encN' ++ encS' ++ t = encN ++ encS ++ t' →
        encN' ++ encS' = encN ++ encS := by
      intro t t' h
      rw [List.append_assoc, List.append_assoc] at h
      obtain ⟨_, heN, hrest⟩ := encodeString_prefixFree hlimit hyn hxn hN' hN h
      obtain ⟨_, heS, _⟩ := encodeString_prefixFree hlimit hys hxs hS' hS hrest
      rw [heN, heS]
    obtain ⟨hpayload, hmessage⟩ := bytepad_prefix hfront' hfront hhead htail
    obtain ⟨hname, _, hrest⟩ := encodeString_prefixFree hlimit hyn hxn hN' hN hpayload
    rw [← List.append_nil encS', ← List.append_nil encS] at hrest
    obtain ⟨hcustomization, _, _⟩ := encodeString_prefixFree hlimit hys hxs hS' hS hrest
    obtain ⟨xn, xs, xm⟩ := x
    obtain ⟨yn, ys, ym⟩ := y
    rw [CShakeArgs.mk.injEq]
    exact ⟨hname.symm, hcustomization.symm, hmessage.symm⟩

theorem kmacInput_inj {limit : Nat} (hKMAC : KMAC.length ≤ limit)
    (hlimit : b.overflowChecks = true ∨ limit * 8 < 2 ^ b.target.usizeBits)
    {x y : KmacArgs} (hxk : x.key.length ≤ limit) (hxs : x.customization.length ≤ limit)
    (hyk : y.key.length ≤ limit) (hys : y.customization.length ≤ limit)
    {input : UInt8 × Bytes} (hx : kmacInput b x = some input)
    (hy : kmacInput b y = some input) : x = y := by
  simp only [kmacInput, Option.bind_eq_bind, Option.bind_eq_some_iff] at hx hy
  obtain ⟨encKey, hkey, keyBlocks, hblocks, bits, hbits, suffix, hsuffix, hx⟩ := hx
  obtain ⟨encKey', hkey', keyBlocks', hblocks', bits', hbits', suffix', hsuffix', hy⟩ := hy
  have hargs := cshakeInput_inj hlimit hKMAC hxs hKMAC hys hx hy
  obtain ⟨_, hcustomization, hmessage⟩ := CShakeArgs.mk.inj hargs
  rw [List.append_assoc, List.append_assoc] at hmessage
  have hhead : ∀ t t', encKey ++ t = encKey' ++ t' → encKey = encKey' := fun t t' h =>
    (encodeString_prefixFree hlimit hxk hyk hkey hkey' h).2.1
  obtain ⟨hencKey, hrest⟩ := bytepad_prefix hblocks hblocks' hhead hmessage
  rw [← List.append_nil encKey, ← List.append_nil encKey'] at hencKey
  have hkeys := (encodeString_prefixFree hlimit hxk hyk hkey hkey' hencKey).1
  have hcount : ∀ {count bits : Nat}, outputBits b count = some bits →
      bits = count * 8 ∧ bits < 2 ^ b.target.usizeBits := by
    intro count bits h
    rw [outputBits] at h
    split at h
    · next hlt =>
      have := Option.some_inj.mp h
      exact ⟨this.symm, this ▸ hlt⟩
    · exact absurd h (by simp)
  obtain ⟨hn, hlt⟩ := hcount hbits
  obtain ⟨hn', hlt'⟩ := hcount hbits'
  obtain ⟨hlen, hmessages⟩ := rightEncode_suffix hlt hlt' hsuffix hsuffix' hrest
  obtain ⟨xk, xs, xm, xl⟩ := x
  obtain ⟨yk, ys, ym, yl⟩ := y
  simp only at hn hn'
  rw [KmacArgs.mk.injEq]
  exact ⟨hkeys, hcustomization, hmessages, by omega⟩

theorem determined_of {limit : Nat}
    (h : b.overflowChecks = true ∨ 8 * limit < 2 ^ b.target.usizeBits) : Determined b limit := by
  have hlimit : b.overflowChecks = true ∨ max limit 4 * 8 < 2 ^ b.target.usizeBits := by
    have hwide := le_two_pow_usizeBits b.target
    rcases h with hchecks | hlimit
    · exact Or.inl hchecks
    · right
      omega
  have hpadded : ∀ {input input' : UInt8 × Bytes}, input.1 ≠ 0 → input'.1 ≠ 0 →
      padded SHAKE256_RATE input.1 input.2 = padded SHAKE256_RATE input'.1 input'.2 →
      input = input' := by
    intro input input' hne hne' heq
    obtain ⟨hdelimiter, hmessage⟩ := domainPad_suffix hne hne' heq
    exact Prod.ext hdelimiter hmessage
  have hdelimiter : ∀ {args : CShakeArgs} {input : UInt8 × Bytes},
      cshakeInput b args = some input → input.1 ≠ 0 := by
    intro args input hinput
    rw [cshakeInput] at hinput
    split at hinput
    · rw [← Option.some_inj.mp hinput]
      show SHAKE256_DOMAIN_SEPARATOR ≠ 0
      decide
    · simp only [Option.bind_eq_bind, Option.bind_eq_some_iff] at hinput
      obtain ⟨_, _, _, _, _, _, hinput⟩ := hinput
      rw [← Option.some_inj.mp hinput]
      show CSHAKE256_DOMAIN_SEPARATOR ≠ 0
      decide
  have hkdelimiter : ∀ {args : KmacArgs} {input : UInt8 × Bytes},
      kmacInput b args = some input → input.1 ≠ 0 := by
    intro args input hinput
    simp only [kmacInput, Option.bind_eq_bind, Option.bind_eq_some_iff] at hinput
    obtain ⟨_, _, _, _, _, _, _, _, hinput⟩ := hinput
    exact hdelimiter hinput
  constructor
  · intro x y hxn hxs hyn hys octets hx hy
    obtain ⟨input, hinput, hoctets⟩ := Option.map_eq_some_iff.mp hx
    obtain ⟨input', hinput', hoctets'⟩ := Option.map_eq_some_iff.mp hy
    have heq := hpadded (hdelimiter hinput) (hdelimiter hinput') (by rw [hoctets, hoctets'])
    exact cshakeInput_inj hlimit (by omega) (by omega) (by omega) (by omega) hinput
      (by rw [heq]; exact hinput')
  · intro x y hxk hxs hyk hys octets hx hy
    obtain ⟨input, hinput, hoctets⟩ := Option.map_eq_some_iff.mp hx
    obtain ⟨input', hinput', hoctets'⟩ := Option.map_eq_some_iff.mp hy
    have heq := hpadded (hkdelimiter hinput) (hkdelimiter hinput') (by rw [hoctets, hoctets'])
    exact kmacInput_inj (by show 4 ≤ max limit 4; omega) hlimit (by omega) (by omega) (by omega)
      (by omega) hinput (by rw [heq]; exact hinput')

/-! ## Strings whose bit length wraps -/

theorem fixedOctets_octet (k : Nat) {x : Nat} (hx : x < 256) :
    fixedOctets (k + 1) x = List.replicate k 0 ++ [UInt8.ofNat x] := by
  refine beValue_inj (by simp) ?_
  have hzeros : beValue (List.replicate k 0) = 0 := by
    induction k with
    | zero => rfl
    | succ k ih => rw [List.replicate_succ', beValue_concat, ih]; rfl
  have hle : 256 ^ 1 ≤ 256 ^ (k + 1) := Nat.pow_le_pow_right (by decide) (by omega)
  rw [beValue_fixedOctets, beValue_concat, hzeros, UInt8.toNat_ofNat', Nat.mod_eq_of_lt (by omega)]
  omega

theorem leftEncode_octet (T : Target) {x : Nat} (hx : x < 256) :
    ∃ encoded, leftEncode T x = some encoded ∧ encoded.octets = [1, UInt8.ofNat x] := by
  obtain ⟨k, hk⟩ : ∃ k, (T.usizeBits + 7) / 8 = k + 1 := by
    have := T.wide
    exact ⟨(T.usizeBits + 7) / 8 - 1, by omega⟩
  have hbytes : usizeBytes T x = List.replicate k 0 ++ [UInt8.ofNat x] := by
    rw [usizeBytes, hk, fixedOctets_octet k hx]
  have hindex : ((usizeBytes T x).findIdx? (· != 0)).getD ((usizeBytes T x).length - 1) = k := by
    rw [hbytes, List.findIdx?_append, List.findIdx?_replicate]
    by_cases hzero : UInt8.ofNat x = 0
    · simp [hzero, List.findIdx?_cons]
    · simp [hzero, List.findIdx?_cons]
  have hlength : (usizeBytes T x).length - k = 1 := by
    rw [hbytes]
    simp
  have hdrop : (usizeBytes T x).drop k = [UInt8.ofNat x] := by
    rw [hbytes, List.drop_append_of_le_length (by simp)]
    simp
  refine ⟨⟨[1, UInt8.ofNat x], by simp⟩, ?_, rfl⟩
  simp only [leftEncode, hindex, hlength, hdrop]
  rfl

theorem encodeString_wraps {n m : Nat} (s : Bytes) (hn : s.length * 8 = n)
    (hm : b.usize n = some m) (hm256 : m < 256) :
    encodeString b s = some ([1, UInt8.ofNat m] ++ s) := by
  obtain ⟨encoded, hencoded, hoctets⟩ := leftEncode_octet b.target hm256
  simp only [encodeString, hn, hm, Option.bind_eq_bind, Option.bind_some, hencoded, hoctets]

def wrapping (b : Build) : Nat := 2 ^ (b.target.usizeBits - 3)

theorem wrapping_spec (b : Build) :
    wrapping b * 8 = 2 ^ b.target.usizeBits ∧ 2 ^ 29 ≤ wrapping b := by
  have hwide := b.target.wide
  refine ⟨?_, Nat.pow_le_pow_right (by decide) (by omega)⟩
  have hpow : 2 ^ b.target.usizeBits = 2 ^ (b.target.usizeBits - 3) * 2 ^ 3 := by
    rw [← pow_add, Nat.sub_add_cancel (by omega)]
  rw [hpow]
  rfl

def wrapped (b : Build) : CShakeArgs := ⟨[0x4e], List.replicate (wrapping b) 0, []⟩

def unwrapped (b : Build) : CShakeArgs :=
  ⟨[0x4e], [], List.replicate
    (wrapping b + (136 - (7 + wrapping b) % 136) % 136 - 129) 0⟩

theorem cshakeInput_front {customization message encS : Bytes} {total : Nat}
    (hS : encodeString b customization = some encS)
    (htotal : b.usize (5 + encS.length) = some total) :
    cshakeInput b ⟨[0x4e], customization, message⟩ = some (CSHAKE256_DOMAIN_SEPARATOR,
      [1, 136] ++ ([1, 8] ++ [0x4e] ++ encS) ++
        List.replicate ((136 - total % 136) % 136) 0 ++ message) := by
  have hfits : b.usize 8 = some 8 := by
    have hwide := le_two_pow_usizeBits b.target
    exact if_pos (by omega)
  have hN : encodeString b [0x4e] = some ([1, 8] ++ [0x4e]) :=
    encodeString_wraps [0x4e] rfl hfits (by decide)
  obtain ⟨encW, hW, hoctets⟩ := leftEncode_octet b.target (by decide : SHAKE256_RATE < 256)
  have hlength : encW.octets.length + ([1, 8] ++ [0x4e] ++ encS : Bytes).length =
      5 + encS.length := by
    rw [hoctets]
    simp
    omega
  rw [cshakeInput, if_neg (by simp)]
  simp only [hN, hS, Option.bind_eq_bind, Option.bind_some, bytepad, hW, hlength, htotal]
  rw [hoctets]
  rfl

theorem wrapped_collide (b : Build) (hchecks : b.overflowChecks = false) :
    ∃ input, cshakeInput b (wrapped b) = some input ∧
      cshakeInput b (unwrapped b) = some input := by
  obtain ⟨height, hlong⟩ := wrapping_spec b
  have hzero : b.usize (2 ^ b.target.usizeBits) = some 0 := by
    rw [Build.usize, if_neg (Nat.lt_irrefl _), if_neg (by rw [hchecks]; decide), Nat.mod_self]
  have hsmall : ∀ {n}, n < 2 ^ b.target.usizeBits → b.usize n = some n := fun h => if_pos h
  have hS := encodeString_wraps (List.replicate (wrapping b) 0)
    (by rw [List.length_replicate, height]) hzero (by decide)
  have hS' := encodeString_wraps (b := b) [] (by rw [List.length_nil, Nat.zero_mul])
    (hsmall (by omega)) (by decide)
  have htotal : b.usize (5 + ([1, UInt8.ofNat 0] ++ List.replicate (wrapping b) 0).length) =
      some (7 + wrapping b) := by
    have hlength : 5 + ([1, UInt8.ofNat 0] ++ List.replicate (wrapping b) (0 : UInt8)).length =
        7 + wrapping b := by
      simp
      omega
    rw [hlength]
    exact hsmall (by omega)
  have htotal' : b.usize (5 + ([1, UInt8.ofNat 0] ++ []).length) = some 7 := hsmall (by simp; omega)
  refine ⟨_, cshakeInput_front hS htotal, ?_⟩
  rw [unwrapped, cshakeInput_front hS' htotal']
  obtain ⟨pad, hpad⟩ : ∃ pad, (136 - (7 + wrapping b) % 136) % 136 = pad := ⟨_, rfl⟩
  have hzeros : List.replicate (wrapping b) (0 : UInt8) ++ List.replicate pad 0 =
      List.replicate 129 0 ++ List.replicate (wrapping b + pad - 129) 0 := by
    have hsum : wrapping b + pad = 129 + (wrapping b + pad - 129) := by omega
    rw [List.replicate_append_replicate, List.replicate_append_replicate, ← hsum]
  have hseven : (136 - 7 % 136) % 136 = 129 := rfl
  rw [hpad, hseven, List.append_nil, List.append_nil]
  simp only [List.append_assoc]
  rw [hzeros]

theorem determined_iff (b : Build) (limit : Nat) :
    Determined b limit ↔ b.overflowChecks = true ∨ 8 * limit < 2 ^ b.target.usizeBits := by
  refine ⟨fun h => ?_, determined_of⟩
  by_contra hcondition
  rw [not_or, Bool.not_eq_true, Nat.not_lt] at hcondition
  obtain ⟨hchecks, hlimit⟩ := hcondition
  obtain ⟨height, hlong⟩ := wrapping_spec b
  obtain ⟨input, hwrapped, hunwrapped⟩ := wrapped_collide b hchecks
  have hsame := h.1 (wrapped b) (unwrapped b) (by show 1 ≤ limit; omega)
    (by rw [wrapped, List.length_replicate]; omega) (by show 1 ≤ limit; omega)
    (Nat.zero_le limit) _ (by rw [cshakeAbsorbed, hwrapped]; rfl)
    (by rw [cshakeAbsorbed, hunwrapped]; rfl)
  have hempty := congrArg (fun args => args.customization.length) hsame
  simp only [wrapped, unwrapped, List.length_replicate, List.length_nil] at hempty
  omega

/-- Streaming holds for every rate and however the calls are split; what the sponge
absorbs determines the arguments exactly when no bit length wraps. -/
theorem sponge_streams_determined (b : Build) (limit : Nat) :
    (∀ (permute : State → State) (r : Nat) (delimiter : UInt8), 0 < r → r < 200 →
      ∀ (parts : List Bytes) (counts : List Nat), ∃ mid outs last,
        (KeccakSponge.new r delimiter).absorbs permute parts = some mid ∧ mid.pos ≤ r ∧
        mid.squeezes permute counts = some (outs, last) ∧ last.pos ≤ r ∧
        outs.map List.length = counts ∧
        outs.flatten = sponge permute r delimiter parts.flatten counts.sum) ∧
    (∀ (permute : State → State) (functionName customization : Bytes)
      (parts : List Bytes) (counts : List Nat),
      (cshakeRun b permute functionName customization parts counts).map
          (fun out => out.1.flatten) =
        (cshakeInput b ⟨functionName, customization, parts.flatten⟩).map
          fun input => sponge permute 136 input.1 input.2 counts.sum) ∧
    (∀ (permute : State → State) (key customization : Bytes) (parts : List Bytes)
      (count : Nat),
      (kmacRun b permute key customization parts count).map Prod.fst =
        (kmacInput b ⟨key, customization, parts.flatten, count⟩).map
          fun input => sponge permute 136 input.1 input.2 count) ∧
    (Determined b limit ↔ b.overflowChecks = true ∨ 8 * limit < 2 ^ b.target.usizeBits) := by
  refine ⟨fun permute r delimiter hr hr200 parts counts =>
    KeccakSponge.streams permute hr hr200 delimiter parts counts,
    fun permute functionName customization parts counts =>
      cshake_streams functionName customization parts counts,
    fun permute key customization parts count => kmac_streams key customization parts count,
    determined_iff b limit⟩

/-- SHAKE256 with an empty call on either side. -/
theorem sponge_streams_shake : ∃ mid outs last,
    (KeccakSponge.new 136 0x1f).absorbs id [[1, 2], []] = some mid ∧ mid.pos ≤ 136 ∧
    mid.squeezes id [0, 3] = some (outs, last) ∧ last.pos ≤ 136 ∧
    outs.map List.length = [0, 3] ∧ outs.flatten = sponge id 136 0x1f [1, 2] 3 :=
  (sponge_streams_determined ⟨⟨64, by decide⟩, true⟩ 0).1 id 136 0x1f (by decide) (by decide)
  [[1, 2], []] [0, 3]

/-- On a target of 32 bits without overflow checks a customization of `2 ^ 29` zeros and
the same zeros in the message are absorbed alike. -/
theorem not_determined : ¬Determined ⟨⟨32, Nat.le_refl 32⟩, false⟩ (2 ^ 29) := by
  rw [determined_iff]
  simp

end Stdx.Hashes
