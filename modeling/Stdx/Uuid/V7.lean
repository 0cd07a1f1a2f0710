import Stdx.Foundation.BitFields
import Stdx.Foundation.Octets

/-!
# UUIDs of version 7

`new_v7_at` of `uuid/uuid.rs`.  The thread-local state is a logical clock: a millisecond
and a counter.  Under the version and variant bits the clock stands above all random
bits, so the order of the UUIDs is the order of the clock.
-/

namespace Stdx

open Stdx.Foundation

/-- `Uuid([u8; 16])` -/
abbrev Uuid := FixedBytes 16

namespace Uuid

inductive Version where
  | nil
  | v1
  | v2
  | v3
  | v4
  | v5
  | v6
  | v7
  | v8
  | max
  | unknown
deriving DecidableEq, Repr

structure V7State where
  timestamp : Nat
  counter : Nat
deriving DecidableEq, Repr

def V7State.new : V7State := ⟨0, 0⟩

/-- The generator: the octets it gives, and how many of them have been drawn. -/
structure Rng where
  octets : Nat → UInt8
  drawn : Nat

def Rng.fillBytes (rng : Rng) (count : Nat) : FixedBytes count × Rng :=
  (⟨(List.range count).map fun i => rng.octets (rng.drawn + i), by simp⟩,
    { rng with drawn := rng.drawn + count })

def version (uuid : Uuid) : Version :=
  match (uuid.octets.getD 6 0 >>> 4).toNat with
  | 1 => .v1
  | 2 => .v2
  | 3 => .v3
  | 4 => .v4
  | 5 => .v5
  | 6 => .v6
  | 7 => .v7
  | 8 => .v8
  | _ =>
    if uuid.octets.all (· == 0) then .nil
    else if uuid.octets.all (· == 0xff) then .max
    else .unknown

/-- The two bits that RFC 9562 sets to `10`. -/
def variant (uuid : Uuid) : Nat := (uuid.octets.getD 8 0 >>> 6).toNat

def timestamp (uuid : Uuid) : Option Nat :=
  if uuid.version ≠ .v7 then none
  else
    let octet (i : Nat) := (uuid.octets.getD i 0).toNat
    some (octet 0 <<< 40 ||| octet 1 <<< 32 ||| octet 2 <<< 24 ||| octet 3 <<< 16 |||
      octet 4 <<< 8 ||| octet 5)

def value (uuid : Uuid) : Nat := beValue uuid.octets

def u32Max : Nat := 2 ^ 32 - 1

def v7RandomCounter (rng : Rng) : Nat × Rng :=
  let (seed, rng) := rng.fillBytes 4
  (beValue seed.octets &&& 0x7FFFFFFF, rng)

def advance (state : V7State) (nowMs : Nat) (rng : Rng) : V7State × Rng :=
  if nowMs > state.timestamp then
    let (counter, rng) := v7RandomCounter rng
    (⟨nowMs, counter⟩, rng)
  else if state.counter = u32Max then
    let (counter, rng) := v7RandomCounter rng
    (⟨(state.timestamp + 1) % 2 ^ 64, counter⟩, rng)
  else (⟨state.timestamp, state.counter + 1⟩, rng)

def layOut (state : V7State) (random : FixedBytes 16) : Uuid where
  octets :=
    (fixedOctets 8 state.timestamp).drop 2 ++
    [UInt8.ofNat (0x70 ||| (state.counter >>> 28 &&& 0x0F)),
      UInt8.ofNat (state.counter >>> 20),
      UInt8.ofNat (0x80 ||| (state.counter >>> 14 &&& 0x3F)),
      UInt8.ofNat (state.counter >>> 6),
      UInt8.ofNat ((state.counter &&& 0x3F) <<< 2) ||| (random.octets.getD 10 0 &&& 0x03)] ++
    random.octets.drop 11
  length_eq := by simp [random.length_eq]

def newV7At (state : V7State) (nowMs : Nat) (rng : Rng) : Uuid × V7State × Rng :=
  let (state, rng) := advance state nowMs rng
  let (random, rng) := rng.fillBytes 16
  (layOut state random, state, rng)

structure Issue where
  uuid : Uuid
  clock : V7State

def issues : V7State → Rng → List Nat → List Issue
  | _, _, [] => []
  | state, rng, nowMs :: readings =>
    let (uuid, state, rng) := newV7At state nowMs rng
    ⟨uuid, state⟩ :: issues state rng readings

def overflows : V7State → Rng → List Nat → Nat
  | _, _, [] => 0
  | state, rng, nowMs :: readings =>
    let (_, after, rng) := newV7At state nowMs rng
    (if nowMs ≤ state.timestamp ∧ state.counter = u32Max then 1 else 0) +
      overflows after rng readings

/-! ## The clock -/

def V7State.key (state : V7State) : Nat := state.timestamp * 2 ^ 32 + state.counter

theorem v7RandomCounter_lt (rng : Rng) : (v7RandomCounter rng).1 < 2 ^ 31 :=
  Nat.lt_of_le_of_lt Nat.and_le_right (by norm_num)

theorem advance_cases (state : V7State) (nowMs : Nat) (rng : Rng) :
    let after := (advance state nowMs rng).1
    (state.timestamp < nowMs ∧ after.timestamp = nowMs ∧ after.counter < 2 ^ 31) ∨
    (nowMs ≤ state.timestamp ∧ state.counter = u32Max ∧
      after.timestamp = (state.timestamp + 1) % 2 ^ 64 ∧ after.counter < 2 ^ 31) ∨
    (nowMs ≤ state.timestamp ∧ state.counter ≠ u32Max ∧
      after.timestamp = state.timestamp ∧ after.counter = state.counter + 1) := by
  have hseed := v7RandomCounter_lt rng
  rw [advance]
  split
  · next hnow => exact .inl ⟨hnow, rfl, hseed⟩
  · next hnow =>
    split
    · next hfull => exact .inr (.inl ⟨Nat.le_of_not_gt hnow, hfull, rfl, hseed⟩)
    · next hfree => exact .inr (.inr ⟨Nat.le_of_not_gt hnow, hfree, rfl, rfl⟩)

/-- A clock that `left` more exhausted counters cannot carry past 48 bits. -/
structure V7State.Within (state : V7State) (left : Nat) : Prop where
  timestamp_lt : state.timestamp + left < 2 ^ 48
  counter_lt : state.counter < 2 ^ 32

structure Advances (state : V7State) (nowMs : Nat) (after : V7State) : Prop where
  key_lt : state.key < after.key
  timestamp_le : state.timestamp ≤ after.timestamp
  now_le : nowMs ≤ after.timestamp

theorem advances_advance {state : V7State} {nowMs left : Nat} (rng : Rng)
    (hnow : nowMs + left < 2 ^ 48)
    (h : state.Within (left + if nowMs ≤ state.timestamp ∧ state.counter = u32Max then 1 else 0)) :
    Advances state nowMs (advance state nowMs rng).1 ∧
      (advance state nowMs rng).1.Within left := by
  obtain ⟨htimestamp, hcounter⟩ := h
  rcases advance_cases state nowMs rng with
    ⟨hlt, hts, hctr⟩ | ⟨hle, hfull, hts, hctr⟩ | ⟨hle, hfree, hts, hctr⟩
  · refine ⟨⟨?_, by omega, by omega⟩, by omega, by omega⟩
    rw [V7State.key, V7State.key]
    omega
  · rw [if_pos ⟨hle, hfull⟩] at htimestamp
    rw [Nat.mod_eq_of_lt (by omega)] at hts
    refine ⟨⟨?_, by omega, by omega⟩, by omega, by omega⟩
    rw [V7State.key, V7State.key]
    omega
  · rw [if_neg fun hboth => hfree hboth.2] at htimestamp
    rw [u32Max] at hfree
    refine ⟨⟨?_, by omega, by omega⟩, by omega, by omega⟩
    rw [V7State.key, V7State.key]
    omega

/-! ## The layout -/

def clockBits (key : Nat) : Nat := insertBits 34 4 7 (insertBits 20 2 2 key)

theorem clockBits_strictMono : StrictMono clockBits :=
  insertBits_strictMono.comp insertBits_strictMono

section Layout

variable {state : V7State} (random : FixedBytes 16)

theorem beValue_timestamp (h : state.timestamp < 2 ^ 48) :
    beValue ((fixedOctets 8 state.timestamp).drop 2) = state.timestamp := by
  have hsplit := beValue_take_drop (fixedOctets 8 state.timestamp) 2
  have hlow := beValue_lt ((fixedOctets 8 state.timestamp).drop 2)
  rw [beValue_fixedOctets, Nat.mod_eq_of_lt (by omega)] at hsplit
  simp only [List.length_drop, fixedOctets_length] at hsplit hlow
  omega

theorem toNat_versionOctet (counter : Nat) :
    (UInt8.ofNat (0x70 ||| (counter >>> 28 &&& 0x0F))).toNat = 112 + counter / 2 ^ 28 % 16 := by
  have hnibble : counter >>> 28 &&& 0x0F = counter / 2 ^ 28 % 16 := by
    rw [Nat.shiftRight_eq_div_pow]
    exact Nat.and_two_pow_sub_one_eq_mod _ 4
  have hor : 0x70 ||| counter / 2 ^ 28 % 16 = 112 + counter / 2 ^ 28 % 16 :=
    (Nat.two_pow_add_eq_or_of_lt (i := 4) (by omega) 7).symm
  rw [hnibble, hor, UInt8.toNat_ofNat', Nat.mod_eq_of_lt (by omega)]

theorem toNat_variantOctet (counter : Nat) :
    (UInt8.ofNat (0x80 ||| (counter >>> 14 &&& 0x3F))).toNat = 128 + counter / 2 ^ 14 % 64 := by
  have hbits : counter >>> 14 &&& 0x3F = counter / 2 ^ 14 % 64 := by
    rw [Nat.shiftRight_eq_div_pow]
    exact Nat.and_two_pow_sub_one_eq_mod _ 6
  have hor : 0x80 ||| counter / 2 ^ 14 % 64 = 128 + counter / 2 ^ 14 % 64 :=
    (Nat.two_pow_add_eq_or_of_lt (i := 6) (by omega) 2).symm
  rw [hbits, hor, UInt8.toNat_ofNat', Nat.mod_eq_of_lt (by omega)]

theorem toNat_mixedOctet (counter : Nat) :
    ∃ bits < 4, (UInt8.ofNat ((counter &&& 0x3F) <<< 2) |||
      (random.octets.getD 10 0 &&& 0x03)).toNat = counter % 64 * 4 + bits := by
  have hmask : counter &&& 0x3F = counter % 64 := Nat.and_two_pow_sub_one_eq_mod _ 6
  have hrandom : (random.octets.getD 10 0).toNat &&& 3 = (random.octets.getD 10 0).toNat % 4 :=
    Nat.and_two_pow_sub_one_eq_mod _ 2
  refine ⟨(random.octets.getD 10 0).toNat % 4, Nat.mod_lt _ (by norm_num), ?_⟩
  rw [UInt8.toNat_or, UInt8.toNat_and, UInt8.toNat_ofNat', hmask, Nat.shiftLeft_eq,
    Nat.mod_eq_of_lt (by omega), show (3 : UInt8).toNat = 3 from rfl, hrandom, Nat.mul_comm]
  exact (Nat.two_pow_add_eq_or_of_lt (i := 2) (Nat.mod_lt _ (by norm_num)) _).symm

theorem clockBits_key (h : state.counter < 2 ^ 32) :
    clockBits state.key = state.timestamp * 2 ^ 38 +
      (112 + state.counter / 2 ^ 28 % 16) * 2 ^ 30 + state.counter / 2 ^ 20 % 256 * 2 ^ 22 +
      (128 + state.counter / 2 ^ 14 % 64) * 2 ^ 14 + state.counter / 2 ^ 6 % 256 * 2 ^ 6 +
      state.counter % 64 := by
  have hhigh : state.key / 2 ^ 20 = state.timestamp * 2 ^ 12 + state.counter / 2 ^ 20 := by
    rw [V7State.key]
    omega
  have hlow : state.key % 2 ^ 20 = state.counter % 2 ^ 20 := by
    rw [V7State.key]
    omega
  have hvariant : insertBits 20 2 2 state.key = state.timestamp * 2 ^ 34 +
      ((state.counter / 2 ^ 20 * 2 ^ 2 + 2) * 2 ^ 20 + state.counter % 2 ^ 20) := by
    rw [insertBits, hhigh, hlow]
    ring
  have hbound : (state.counter / 2 ^ 20 * 2 ^ 2 + 2) * 2 ^ 20 + state.counter % 2 ^ 20 <
      2 ^ 34 := by omega
  rw [clockBits, hvariant, insertBits, Nat.mul_comm state.timestamp,
    Nat.mul_add_div (Nat.two_pow_pos 34), Nat.mul_add_mod, Nat.div_eq_of_lt hbound,
    Nat.mod_eq_of_lt hbound]
  omega

theorem value_layOut (htimestamp : state.timestamp < 2 ^ 48) (hcounter : state.counter < 2 ^ 32) :
    ∃ low < 2 ^ 42, (layOut state random).value = clockBits state.key * 2 ^ 42 + low := by
  obtain ⟨bits, hbits, hmixed⟩ := toNat_mixedOctet random state.counter
  have hrest := beValue_lt (random.octets.drop 11)
  have hlen : (random.octets.drop 11).length = 5 := by simp [random.length_eq]
  rw [hlen] at hrest
  have hsecond : (UInt8.ofNat (state.counter >>> 20)).toNat = state.counter / 2 ^ 20 % 256 := by
    rw [UInt8.toNat_ofNat', Nat.shiftRight_eq_div_pow]
  have hfourth : (UInt8.ofNat (state.counter >>> 6)).toNat = state.counter / 2 ^ 6 % 256 := by
    rw [UInt8.toNat_ofNat', Nat.shiftRight_eq_div_pow]
  refine ⟨bits * 2 ^ 40 + beValue (random.octets.drop 11), by omega, ?_⟩
  rw [value, layOut, beValue_append, beValue_append, beValue_timestamp htimestamp, hlen]
  simp only [beValue_cons, beValue_nil, List.length_cons, List.length_nil]
  rw [toNat_versionOctet, hsecond, toNat_variantOctet, hfourth, hmixed, clockBits_key hcounter]
  ring

theorem timestamp_octets (state : V7State) : ∃ a b c d e f,
    (fixedOctets 8 state.timestamp).drop 2 = [a, b, c, d, e, f] := by
  have hlen : ((fixedOctets 8 state.timestamp).drop 2).length = 6 := by simp
  generalize (fixedOctets 8 state.timestamp).drop 2 = octets at hlen
  match octets, hlen with
  | [a, b, c, d, e, f], _ => exact ⟨a, b, c, d, e, f, rfl⟩

theorem version_layOut : (layOut state random).version = .v7 := by
  have hoctet : (layOut state random).octets.getD 6 0 =
      UInt8.ofNat (0x70 ||| (state.counter >>> 28 &&& 0x0F)) := by
    obtain ⟨a, b, c, d, e, f, hocts⟩ := timestamp_octets state
    simp only [layOut, hocts, List.cons_append, List.nil_append, List.getD_cons_zero,
      List.getD_cons_succ]
  have hnibble : ((layOut state random).octets.getD 6 0 >>> 4).toNat = 7 := by
    rw [hoctet, UInt8.toNat_shiftRight, toNat_versionOctet, Nat.shiftRight_eq_div_pow]
    change (112 + state.counter / 2 ^ 28 % 16) / 2 ^ 4 = 7
    omega
  simp only [version, hnibble]

theorem variant_layOut : (layOut state random).variant = 2 := by
  have hoctet : (layOut state random).octets.getD 8 0 =
      UInt8.ofNat (0x80 ||| (state.counter >>> 14 &&& 0x3F)) := by
    obtain ⟨a, b, c, d, e, f, hocts⟩ := timestamp_octets state
    simp only [layOut, hocts, List.cons_append, List.nil_append, List.getD_cons_zero,
      List.getD_cons_succ]
  rw [variant, hoctet, UInt8.toNat_shiftRight, toNat_variantOctet, Nat.shiftRight_eq_div_pow]
  change (128 + state.counter / 2 ^ 14 % 64) / 2 ^ 6 = 2
  omega

theorem shifted_octets {a b c d e f : Nat} (hb : b < 256) (hc : c < 256) (hd : d < 256)
    (he : e < 256) (hf : f < 256) :
    a <<< 40 ||| b <<< 32 ||| c <<< 24 ||| d <<< 16 ||| e <<< 8 ||| f =
      ((((a * 256 + b) * 256 + c) * 256 + d) * 256 + e) * 256 + f := by
  have happend (high low : Nat) (hlow : low < 256) : high <<< 8 ||| low = high * 256 + low := by
    rw [Nat.shiftLeft_eq, Nat.mul_comm, ← Nat.two_pow_add_eq_or_of_lt (i := 8) hlow]
  have hshift (high low k : Nat) (hlow : low < 256) :
      high <<< (8 + k) ||| low <<< k = (high * 256 + low) <<< k := by
    rw [Nat.shiftLeft_add, ← Nat.shiftLeft_or_distrib, happend high low hlow]
  rw [hshift a b 32 hb, hshift _ c 24 hc, hshift _ d 16 hd, hshift _ e 8 he, happend _ f hf]

theorem timestamp_layOut (htimestamp : state.timestamp < 2 ^ 48) :
    (layOut state random).timestamp = some state.timestamp := by
  obtain ⟨a, b, c, d, e, f, hocts⟩ := timestamp_octets state
  have hvalue := beValue_timestamp htimestamp
  rw [hocts] at hvalue
  simp only [beValue, List.foldl_cons, List.foldl_nil, Nat.zero_mul, Nat.zero_add] at hvalue
  rw [timestamp, version_layOut, if_neg (by simp)]
  simp only [layOut, hocts, List.cons_append, List.getD_cons_zero, List.getD_cons_succ]
  rw [shifted_octets b.toNat_lt c.toNat_lt d.toNat_lt e.toNat_lt f.toNat_lt, hvalue]

end Layout

theorem value_lt_of_key_lt {earlier later : V7State} (random random' : FixedBytes 16)
    {left left' : Nat} (hearlier : earlier.Within left) (hlater : later.Within left')
    (h : earlier.key < later.key) :
    (layOut earlier random).value < (layOut later random').value := by
  obtain ⟨low, hlow, hvalue⟩ :=
    value_layOut random (Nat.lt_of_le_of_lt (Nat.le_add_right _ left) hearlier.1) hearlier.2
  obtain ⟨low', -, hvalue'⟩ :=
    value_layOut random' (Nat.lt_of_le_of_lt (Nat.le_add_right _ left') hlater.1) hlater.2
  rw [hvalue, hvalue']
  exact append_bits_lt low' (clockBits_strictMono h) hlow

/-! ## Runs -/

structure Issue.Sound (nowMs : Nat) (issue : Issue) : Prop where
  version_eq : issue.uuid.version = .v7
  variant_eq : issue.uuid.variant = 2
  timestamp_eq : issue.uuid.timestamp = some issue.clock.timestamp
  now_le : nowMs ≤ issue.clock.timestamp

structure Issue.Before (earlier later : Issue) : Prop where
  value_lt : earlier.uuid.value < later.uuid.value
  timestamp_le : earlier.clock.timestamp ≤ later.clock.timestamp

theorem clock_lt_issues {state : V7State} {rng : Rng} {readings : List Nat} {bound : Nat}
    (hreadings : ∀ nowMs ∈ readings, nowMs + bound < 2 ^ 48)
    (hover : overflows state rng readings ≤ bound)
    (h : state.Within (overflows state rng readings)) :
    ∀ issue ∈ issues state rng readings,
      state.key < issue.clock.key ∧ state.timestamp ≤ issue.clock.timestamp ∧
      issue.clock.Within 0 ∧ ∃ random, issue.uuid = layOut issue.clock random := by
  induction readings generalizing state rng with
  | nil => simp [issues]
  | cons nowMs readings ih =>
    rw [overflows] at hover h
    rw [issues]
    simp only [newV7At] at hover h ⊢
    rw [Nat.add_comm] at h
    obtain ⟨hadvances, hwithin⟩ := advances_advance rng
      (by have := hreadings nowMs List.mem_cons_self; omega) h
    intro issue hmem
    rcases List.mem_cons.mp hmem with rfl | hmem
    · exact ⟨hadvances.key_lt, hadvances.timestamp_le,
        ⟨Nat.lt_of_le_of_lt (Nat.le_add_right _ _) hwithin.1, hwithin.2⟩, _, rfl⟩
    · have hlater := ih (fun now hnow => hreadings now (List.mem_cons_of_mem _ hnow))
        (by omega) hwithin issue hmem
      exact ⟨hadvances.key_lt.trans hlater.1, hadvances.timestamp_le.trans hlater.2.1,
        hlater.2.2⟩

theorem issues_sound {state : V7State} {rng : Rng} {readings : List Nat} {bound : Nat}
    (hreadings : ∀ nowMs ∈ readings, nowMs + bound < 2 ^ 48)
    (hover : overflows state rng readings ≤ bound)
    (h : state.Within (overflows state rng readings)) :
    (issues state rng readings).Pairwise Issue.Before ∧
      List.Forall₂ Issue.Sound readings (issues state rng readings) := by
  induction readings generalizing state rng with
  | nil => exact ⟨.nil, .nil⟩
  | cons nowMs readings ih =>
    rw [overflows] at hover h
    rw [issues]
    simp only [newV7At] at hover h ⊢
    rw [Nat.add_comm] at h
    obtain ⟨hadvances, hwithin⟩ := advances_advance rng
      (by have := hreadings nowMs List.mem_cons_self; omega) h
    have hlater : ∀ now ∈ readings, now + bound < 2 ^ 48 := fun now hnow =>
      hreadings now (List.mem_cons_of_mem _ hnow)
    obtain ⟨hpairwise, hsound⟩ := ih hlater (by omega) hwithin
    refine ⟨List.pairwise_cons.mpr ⟨fun issue hmem => ?_, hpairwise⟩, .cons ?_ hsound⟩
    · obtain ⟨hkey, htimestamp, hissue, random, hlay⟩ :=
        clock_lt_issues hlater (by omega) hwithin issue hmem
      refine ⟨?_, htimestamp⟩
      rw [hlay]
      exact value_lt_of_key_lt _ _ hwithin hissue hkey
    · exact ⟨version_layOut _, variant_layOut _,
        timestamp_layOut _ (Nat.lt_of_le_of_lt (Nat.le_add_right _ _) hwithin.1),
        hadvances.now_le⟩

/-- On one thread, whatever the clock reads and whatever random octets come, the UUIDs are
strictly increasing, each is of version 7 and the variant of the RFC, and its timestamp is
the logical clock, which never runs back and never lags behind the reading. -/
theorem new_v7_monotone (readings : List Nat) (rng : Rng)
    (hreadings : ∀ nowMs ∈ readings, nowMs < 2 ^ 48 - 2 ^ 16)
    (hover : overflows .new rng readings < 2 ^ 16) :
    (issues .new rng readings).Pairwise Issue.Before ∧
      List.Forall₂ Issue.Sound readings (issues .new rng readings) := by
  refine @issues_sound .new rng readings (2 ^ 16) ?_ ?_ ?_
  · intro nowMs hmem
    have := hreadings nowMs hmem
    omega
  · exact hover.le
  · constructor
    · change 0 + _ < _
      omega
    · exact Nat.two_pow_pos 32

/-- A clock that stands still, runs back and goes on. -/
theorem new_v7_monotone_rollback :
    let rng : Rng := ⟨fun i => UInt8.ofNat (7 * i), 0⟩
    (issues .new rng [5, 5, 3, 8]).Pairwise Issue.Before ∧
      List.Forall₂ Issue.Sound [5, 5, 3, 8] (issues .new rng [5, 5, 3, 8]) :=
  new_v7_monotone [5, 5, 3, 8] ⟨fun i => UInt8.ofNat (7 * i), 0⟩ (by decide) (by decide)

end Uuid

end Stdx
