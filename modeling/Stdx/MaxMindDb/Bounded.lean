import Stdx.MaxMindDb.Codec

/-!
# Bounded decoding

A decoder is watched while it hands values to its visitor: every call is noted
with the depth it is made at and the octets of string or byte payload that the
visitor borrows.  The watched decoder is the decoder itself once the notes are
erased, and the budgets bound the notes on every outcome.
-/

namespace Stdx.MaxMindDb

open Stdx.Foundation
open Checked (Triple run_bind)

structure Visit where
  depth : Nat
  payload : Nat
  deriving DecidableEq, Repr

structure Observed where
  decoder : Decoder
  visits : List Visit

abbrev Watch (α : Type) : Type := Checked Observed MaxMindDBError α

variable {α β : Type}

def watching (code : Decode α) : Watch α := fun s =>
  ((code s.decoder).1, { s with decoder := (code s.decoder).2 })

def withObserved (f : Observed → Watch α) : Watch α := fun s => f s s

def noteVisit (payload : Nat) : Watch Unit := fun s =>
  (.ok (), { s with visits := ⟨s.decoder.depth, payload⟩ :: s.visits })

def Visited.borrowed : Visited → Nat
  | .string s => (utf8 s).length
  | .bytes b => b.length
  | _ => 0

def watchArray (element : Watch Visited) (size : Nat) : Watch Visited :=
  withObserved fun s =>
    if size > s.decoder.valuesLeft then
      watching (decodeArray Checked.abort size)
    else do
      noteVisit 0
      let elements ← visitSeq element size
      return .array elements

def watchMap (element : Watch Visited) (size : Nat) : Watch Visited :=
  withObserved fun s =>
    if size * 2 > s.decoder.valuesLeft then
      watching (decodeMap Checked.abort size)
    else do
      noteVisit 0
      let entries ← visitMap element (size * 2)
      return .map entries

def watchValue (element : Watch Visited) (size typeNum : Nat) : Watch Visited :=
  if typeNum = 7 then
    watchMap element size
  else if typeNum = 11 then
    watchArray element size
  else do
    let result ← watching (decodeValue Checked.abort size typeNum)
    noteVisit result.borrowed
    return result

def watchRestoring (savedDepth : Nat) (code : Watch α) : Watch α := fun s =>
  ((code s).1, { (code s).2 with decoder := { (code s).2.decoder with depth := savedDepth } })

def watchAnyAround (inner : Watch Visited) : Watch Visited := do
  watching chargeValue
  withObserved fun s => do
    watching enterDepth
    watchRestoring s.decoder.depth inner

def watchAnyInner : Nat → Option Nat → Watch Visited
  | 0, _ => Checked.abort
  | levels + 1, restorePtr => do
      let (size, typeNum) ← watching sizeAndType
      if typeNum = 1 then
        let target ← watching (decodePointer size)
        withObserved fun s =>
          if target ≥ s.decoder.buf.length then
            Checked.fail (.invalidDatabaseError (
              s!"pointer at offset {s.decoder.currentPtr - 1} points " ++
                s!"beyond end of buffer ({target})"))
          else do
            watching enterDepth
            watching (update ({ · with currentPtr := target }))
            watchAnyInner levels (restorePtr.or (some s.decoder.currentPtr))
      else
        let result ← watchValue (watchAnyAround (watchAnyInner levels none)) size typeNum
        match restorePtr with
        | some ptr =>
          watching (update ({ · with currentPtr := ptr }))
          return result
        | none => return result

/-! ## The watched decoder is the decoder -/

def Erases (watched : Watch α) (code : Decode α) : Prop :=
  ∀ s, code s.decoder = ((watched s).1, (watched s).2.decoder)

theorem erases_watching (code : Decode α) : Erases (watching code) code := fun _ => rfl

theorem erases_pure (value : α) : Erases (pure value : Watch α) (pure value) := fun _ => rfl

theorem erases_fail (error : MaxMindDBError) :
    Erases (Checked.fail error : Watch α) (Checked.fail error) := fun _ => rfl

theorem Erases.bind {watched : Watch α} {code : Decode α} {next : α → Watch β}
    {next' : α → Decode β} (h : Erases watched code) (hnext : ∀ a, Erases (next a) (next' a)) :
    Erases (watched >>= next) (code >>= next') := by
  intro s
  rw [run_bind, run_bind, h s]
  cases hrun : watched s with
  | mk outcome s' =>
    cases outcome with
    | ok value => exact hnext value s'
    | err error => rfl
    | panic => rfl

theorem Erases.noteVisit {next : Watch β} {code : Decode β} (payload : Nat)
    (h : Erases next code) : Erases (do MaxMindDb.noteVisit payload; next) code :=
  fun s => h { s with visits := ⟨s.decoder.depth, payload⟩ :: s.visits }

theorem erases_noted (code : Decode Visited) : Erases (do
    let result ← watching code
    noteVisit result.borrowed
    return result) code := by
  intro s
  rw [run_bind, watching]
  rcases code s.decoder with ⟨_ | _ | _, d⟩ <;> rfl

theorem erases_visitSeq {element : Watch Visited} {element' : Decode Visited}
    (h : Erases element element') (count : Nat) :
    Erases (visitSeq element count) (visitSeq element' count) := by
  induction count with
  | zero => exact erases_pure _
  | succ count ih => exact h.bind fun _ => ih.bind fun _ => erases_pure _

theorem erases_visitMap {element : Watch Visited} {element' : Decode Visited}
    (h : Erases element element') (count : Nat) :
    Erases (visitMap element count) (visitMap element' count) := by
  induction count using Nat.twoStepInduction with
  | zero => exact erases_pure _
  | one => exact h.bind fun _ => erases_fail _
  | more count ih _ => exact h.bind fun _ => h.bind fun _ => ih.bind fun _ => erases_pure _

theorem decodeValue_scalar {size typeNum : Nat} (hmap : typeNum ≠ 7) (harray : typeNum ≠ 11)
    (element : Decode Visited) :
    decodeValue element size typeNum = decodeValue Checked.abort size typeNum := by
  unfold decodeValue
  split <;> first | rfl | contradiction

theorem erases_watchValue {element : Watch Visited} {element' : Decode Visited}
    (h : Erases element element') (size typeNum : Nat) :
    Erases (watchValue element size typeNum) (decodeValue element' size typeNum) := by
  unfold watchValue
  split
  · next hmap =>
    subst hmap
    intro s
    change decodeMap element' size s.decoder = _
    unfold watchMap withObserved decodeMap withDecoder
    dsimp only
    split
    · next hlarge => simp [watching, hlarge]
    · exact ((erases_visitMap h _).bind fun _ => erases_pure _).noteVisit 0 s
  · split
    · next harray =>
      subst harray
      intro s
      change decodeArray element' size s.decoder = _
      unfold watchArray withObserved decodeArray withDecoder
      dsimp only
      split
      · next hlarge => simp [watching, hlarge]
      · exact ((erases_visitSeq h _).bind fun _ => erases_pure _).noteVisit 0 s
    · next hmap harray =>
      rw [decodeValue_scalar hmap harray element']
      exact erases_noted _

theorem erases_watchAnyAround {inner : Watch Visited} {inner' : Decode Visited}
    (h : Erases inner inner') : Erases (watchAnyAround inner) (decodeAnyAround inner') := by
  refine (erases_watching _).bind fun _ s => ?_
  refine (erases_watching enterDepth).bind (fun _ t => ?_) s
  rw [restoringDepth, h t]
  rfl

theorem erases_watchAnyInner (levels : Nat) (restorePtr : Option Nat) :
    Erases (watchAnyInner levels restorePtr) (decodeAnyInner levels restorePtr) := by
  induction levels generalizing restorePtr with
  | zero => exact fun _ => rfl
  | succ levels ih =>
    refine (erases_watching _).bind fun ⟨size, typeNum⟩ => ?_
    dsimp only
    split
    · refine (erases_watching _).bind fun target s => ?_
      unfold withObserved withDecoder
      dsimp only
      split
      · rfl
      · exact ((erases_watching _).bind fun _ => (erases_watching _).bind fun _ => ih _) s
    · refine (erases_watchValue (erases_watchAnyAround (ih none)) size typeNum).bind
        fun result => ?_
      cases restorePtr with
      | none => exact erases_pure _
      | some ptr => exact (erases_watching _).bind fun _ => erases_pure _

/-! ## What one step of the decoder spends -/

/-- The cursor may have moved, and `payload` octets of the budget are used. -/
structure Decoder.Spends (d₀ : Decoder) (payload : Nat) (d : Decoder) : Prop where
  limits : d.limits = d₀.limits
  depth : d.depth = d₀.depth
  values : d.valuesLeft = d₀.valuesLeft
  payload : d.payloadLeft + payload = d₀.payloadLeft

def Decoder.SpendsSome (d₀ d : Decoder) : Prop := ∃ payload, d₀.Spends payload d

theorem Decoder.Spends.refl (d : Decoder) : d.Spends 0 d := ⟨rfl, rfl, rfl, rfl⟩

theorem Decoder.Spends.moved {d₀ d : Decoder} {payload : Nat} (h : d₀.Spends payload d)
    (ptr : Nat) : d₀.Spends payload { d with currentPtr := ptr } :=
  ⟨h.limits, h.depth, h.values, h.payload⟩

section steps

variable {d₀ : Decoder} {payload : Nat}

theorem ensureAvailable_triple (n : Nat) :
    Triple (d₀.Spends payload) (ensureAvailable n)
      (fun _ d => d₀.Spends payload d ∧ d.currentPtr + n ≤ d.buf.length) d₀.SpendsSome := by
  intro d hd
  by_cases hroom : d.currentPtr + n ≤ d.buf.length
  · rw [ensureAvailable, if_pos hroom]
    exact ⟨hd, hroom⟩
  · rw [ensureAvailable, if_neg hroom]
    exact ⟨payload, hd⟩

theorem takeSlice_triple (n : Nat) :
    Triple (fun d => d₀.Spends payload d ∧ d.currentPtr + n ≤ d.buf.length) (takeSlice n)
      (fun bytes d => bytes.length = n ∧ d₀.Spends payload d ∧ n ≤ d.currentPtr)
      d₀.SpendsSome := by
  rintro d ⟨hd, hroom⟩
  rw [takeSlice, run_bind, slice, if_pos hroom]
  refine ⟨?_, hd.moved _, Nat.le_add_left n _⟩
  rw [List.length_take, List.length_drop]
  omega

theorem eatByte_triple :
    Triple (d₀.Spends payload) eatByte (fun _ d => d₀.Spends payload d) d₀.SpendsSome := by
  refine (ensureAvailable_triple 1).bind fun _ => (takeSlice_triple 1).bind fun bytes => ?_
  rintro d ⟨hlength, hd, -⟩
  cases bytes with
  | nil => simp at hlength
  | cons b rest => exact hd

theorem toUsize_lt {bytes : Bytes} {n : Nat} (h : bytes.length ≤ n) :
    toUsize 0 bytes < 256 ^ n := by
  rw [toUsize_eq, Nat.zero_mul, Nat.zero_add]
  exact Nat.lt_of_lt_of_le (beValue_lt bytes) (Nat.pow_le_pow_right (by omega) h)

theorem sizeFromCtrlByte_triple (ctrlByte : UInt8) :
    Triple (d₀.Spends payload) (sizeFromCtrlByte ctrlByte)
      (fun size d => size < 2 ^ 25 ∧ d₀.Spends payload d) d₀.SpendsSome := by
  have hctrl : (ctrlByte &&& 0x1f).toNat < 32 := by
    rw [UInt8.toNat_and]
    exact Nat.lt_of_le_of_lt Nat.and_le_right (by decide)
  refine (ensureAvailable_triple _).bind fun _ => (takeSlice_triple _).bind fun bytes => ?_
  split
  · refine .pure ?_
    rintro d ⟨-, hd, -⟩
    exact ⟨by omega, hd⟩
  · split
    · next hone =>
      rintro d ⟨hlength, hd, -⟩
      cases bytes with
      | nil => simp [hone] at hlength
      | cons b rest =>
        have := b.toNat_lt
        exact ⟨by omega, hd⟩
    · split
      · refine .pure ?_
        rintro d ⟨hlength, hd, -⟩
        have := @toUsize_lt bytes 2 (by omega)
        exact ⟨by omega, hd⟩
      · refine .pure ?_
        rintro d ⟨hlength, hd, -⟩
        have := @toUsize_lt bytes 3 (by omega)
        exact ⟨by omega, hd⟩

theorem sizeAndType_triple :
    Triple (d₀.Spends payload) sizeAndType
      (fun header d => (header.1 < 2 ^ 25 ∧ header.2 < 263) ∧ d₀.Spends payload d)
      d₀.SpendsSome := by
  refine eatByte_triple.bind fun ctrlByte => ?_
  have htail (typeNum : Nat) (ht : typeNum < 263) : Triple (d₀.Spends payload)
      (do
        let size ← sizeFromCtrlByte ctrlByte
        return (size, typeNum))
      (fun header d => (header.1 < 2 ^ 25 ∧ header.2 < 263) ∧ d₀.Spends payload d)
      d₀.SpendsSome := by
    refine (sizeFromCtrlByte_triple ctrlByte).bind fun size => .pure ?_
    rintro d ⟨hsize, hd⟩
    exact ⟨⟨hsize, ht⟩, hd⟩
  dsimp only
  split
  · refine eatByte_triple.bind fun extended => htail (extended.toNat + 7) ?_
    have := extended.toNat_lt
    omega
  · refine htail (ctrlByte >>> 5).toNat ?_
    have := (ctrlByte >>> 5).toNat_lt
    omega

theorem decodePointer_triple (size : Nat) :
    Triple (d₀.Spends payload) (decodePointer size)
      (fun target d => (target < 2 ^ 32 ∧ 0 < d.currentPtr) ∧ d₀.Spends payload d)
      d₀.SpendsSome := by
  have hform : (size >>> 3) &&& 0x3 ≤ 3 := Nat.and_le_right
  have hhigh : size &&& 0x7 ≤ 7 := Nat.and_le_right
  refine (ensureAvailable_triple _).bind fun _ => (takeSlice_triple _).bind fun bytes => .pure ?_
  rintro d ⟨hlength, hd, hptr⟩
  refine ⟨⟨?_, by omega⟩, hd⟩
  have hvalue := beValue_lt bytes
  rw [hlength] at hvalue
  rw [toUsize_eq, hlength]
  generalize (size >>> 3) &&& 0x3 = form at *
  generalize size &&& 0x7 = high at *
  interval_cases form <;> simp [pointerValueOffset] at * <;> omega

theorem chargePayload_triple (n : Nat) :
    Triple (d₀.Spends payload) (chargePayload n)
      (fun _ d => d₀.Spends (payload + n) d) d₀.SpendsSome := by
  intro d hd
  by_cases hroom : n ≤ d.payloadLeft
  · rw [chargePayload, if_pos hroom]
    have := hd.payload
    exact ⟨hd.limits, hd.depth, hd.values, by dsimp only; omega⟩
  · rw [chargePayload, if_neg hroom]
    exact ⟨payload, hd⟩

theorem decodeBytes_triple (size : Nat) :
    Triple (d₀.Spends payload) (decodeBytes size)
      (fun bytes d => bytes.length = size ∧ d₀.Spends (payload + size) d) d₀.SpendsSome := by
  refine (chargePayload_triple size).bind fun _ => (ensureAvailable_triple size).bind fun _ =>
    (takeSlice_triple size).consequence (fun _ h => h) ?_ (fun _ h => h)
  rintro bytes d ⟨hlength, hd, -⟩
  exact ⟨hlength, hd⟩

theorem decodeString_triple (size : Nat) :
    Triple (d₀.Spends payload) (decodeString size)
      (fun s d => (utf8 s).length = size ∧ d₀.Spends (payload + size) d) d₀.SpendsSome := by
  refine (chargePayload_triple size).bind fun _ => (ensureAvailable_triple size).bind fun _ =>
    (takeSlice_triple size).bind fun bytes => ?_
  rintro d ⟨hlength, hd, -⟩
  cases hutf8 : fromUtf8 bytes with
  | none => exact ⟨_, hd⟩
  | some s => exact ⟨by rw [utf8_of_fromUtf8 hutf8, hlength], hd⟩

theorem decodeInteger_triple (w : Nat) (name : String) (size : Nat) :
    Triple (d₀.Spends payload) (decodeInteger w name size)
      (fun _ d => d₀.Spends payload d) d₀.SpendsSome := by
  unfold decodeInteger
  split
  · refine (ensureAvailable_triple size).bind fun _ =>
      (takeSlice_triple size).bind fun _ => .pure ?_
    rintro d ⟨-, hd, -⟩
    exact hd
  · exact .fail fun d hd => ⟨_, hd⟩

theorem decodeIeee_triple (w : Nat) (name : String) (size : Nat) :
    Triple (d₀.Spends payload) (decodeIeee w name size)
      (fun _ d => d₀.Spends payload d) d₀.SpendsSome := by
  refine (ensureAvailable_triple size).bind fun _ => ?_
  have hslice : Triple (fun d => d₀.Spends payload d ∧ d.currentPtr + size ≤ d.buf.length)
      (slice size) (fun _ d => d₀.Spends payload d ∧ d.currentPtr + size ≤ d.buf.length)
      d₀.SpendsSome := by
    rintro d ⟨hd, hroom⟩
    rw [slice, if_pos hroom]
    exact ⟨hd, hroom⟩
  refine hslice.bind fun value => ?_
  split
  · refine (takeSlice_triple size).bind fun _ => .pure ?_
    rintro d ⟨-, hd, -⟩
    exact hd
  · exact .fail fun d hd => ⟨_, hd.1⟩

theorem decodeBool_triple (size : Nat) :
    Triple (d₀.Spends payload) (decodeBool size)
      (fun _ d => d₀.Spends payload d) d₀.SpendsSome := by
  unfold decodeBool
  split
  · exact .pure fun d hd => hd
  · exact .pure fun d hd => hd
  · exact .fail fun d hd => ⟨_, hd⟩

theorem decodeScalar_triple {size typeNum : Nat} (hmap : typeNum ≠ 7) (harray : typeNum ≠ 11) :
    Triple (d₀.Spends 0) (decodeValue Checked.abort size typeNum)
      (fun result d => d₀.Spends result.borrowed d) d₀.SpendsSome := by
  have hfree {α : Type} {code : Decode α} {wrap : α → Visited}
      (hcode : Triple (d₀.Spends 0) code (fun _ d => d₀.Spends 0 d) d₀.SpendsSome)
      (hwrap : ∀ a, (wrap a).borrowed = 0) :
      Triple (d₀.Spends 0) (do return wrap (← code) : Decode Visited)
        (fun result d => d₀.Spends result.borrowed d) d₀.SpendsSome :=
    hcode.bind fun a => .pure fun d hd => (hwrap a).symm ▸ hd
  unfold decodeValue
  split
  · refine (decodeString_triple size).bind fun s => .pure ?_
    rintro d ⟨rfl, hd⟩
    rw [Nat.zero_add] at hd
    exact hd
  · exact hfree (decodeIeee_triple 64 _ size) fun _ => rfl
  · refine (decodeBytes_triple size).bind fun bytes => .pure ?_
    rintro d ⟨rfl, hd⟩
    rw [Nat.zero_add] at hd
    exact hd
  · exact hfree (decodeInteger_triple 16 _ size) fun _ => rfl
  · exact hfree (decodeInteger_triple 32 _ size) fun _ => rfl
  · contradiction
  · exact hfree (decodeInteger_triple 32 _ size) fun _ => rfl
  · exact hfree (decodeInteger_triple 64 _ size) fun _ => rfl
  · exact hfree (decodeInteger_triple 128 _ size) fun _ => rfl
  · contradiction
  · exact hfree (decodeBool_triple size) fun _ => rfl
  · exact hfree (decodeIeee_triple 32 _ size) fun _ => rfl
  · exact .fail fun d hd => ⟨_, hd⟩

end steps

/-! ## The budgets bound the visits -/

/--
The visits made so far, with `values` values and `payload` octets charged and
not handed over yet, fit what is left of the limits.
-/
structure Observed.At (limits : DecodeLimits) (depth values payload : Nat)
    (s : Observed) : Prop where
  limits_eq : s.decoder.limits = limits
  depth_eq : s.decoder.depth = depth
  values_le : s.visits.length + values + s.decoder.valuesLeft ≤ limits.maxValues
  payload_le : (s.visits.map Visit.payload).sum + payload + s.decoder.payloadLeft ≤
    limits.maxPayloadBytes
  depth_le : ∀ v ∈ s.visits, 0 < v.depth ∧ v.depth ≤ limits.maxDepth

/-- The limits hold of the visits, wherever the decoder stands. -/
structure Observed.Within (limits : DecodeLimits) (s : Observed) : Prop where
  values_le : s.visits.length ≤ limits.maxValues
  payload_le : (s.visits.map Visit.payload).sum ≤ limits.maxPayloadBytes
  depth_le : ∀ v ∈ s.visits, 0 < v.depth ∧ v.depth ≤ limits.maxDepth

namespace Observed

variable {limits : DecodeLimits} {depth values payload : Nat} {s : Observed}

theorem At.within (h : s.At limits depth values payload) : s.Within limits where
  values_le := by have := h.values_le; omega
  payload_le := by have := h.payload_le; omega
  depth_le := h.depth_le

theorem At.spends (h : s.At limits depth values payload) {more : Nat} {d : Decoder}
    (hd : s.decoder.Spends more d) :
    { s with decoder := d }.At limits depth values (payload + more) where
  limits_eq := hd.limits.trans h.limits_eq
  depth_eq := hd.depth.trans h.depth_eq
  values_le := hd.values.symm ▸ h.values_le
  payload_le := by
    have := h.payload_le
    have := hd.payload
    dsimp only
    omega
  depth_le := h.depth_le

end Observed

section budgets

variable {limits : DecodeLimits} {depth values payload : Nat}

theorem watching_triple {code : Decode α} {cost : α → Nat} {fact : α → Prop}
    (h : ∀ d₀ : Decoder, Triple (d₀.Spends 0) code
      (fun a d => fact a ∧ d₀.Spends (cost a) d) d₀.SpendsSome) :
    Triple (Observed.At limits depth values payload) (watching code)
      (fun a s => fact a ∧ s.At limits depth values (payload + cost a))
      (Observed.Within limits) := by
  intro s hs
  have h := h s.decoder s.decoder (.refl _)
  rw [watching]
  rcases hrun : code s.decoder with ⟨outcome, d⟩
  rw [hrun] at h
  cases outcome with
  | ok value => exact ⟨h.1, hs.spends h.2⟩
  | err error =>
    obtain ⟨more, hd⟩ := h
    exact (hs.spends hd).within
  | panic => exact h

theorem noteVisit_triple (hpos : 0 < depth) (hdepth : depth ≤ limits.maxDepth) :
    Triple (Observed.At limits depth (values + 1) payload) (noteVisit payload)
      (fun _ s => s.At limits depth values 0) (Observed.Within limits) := by
  intro s hs
  have hvalues := hs.values_le
  have hpayload := hs.payload_le
  refine ⟨hs.limits_eq, hs.depth_eq, ?_, ?_, ?_⟩
  · rw [List.length_cons]
    dsimp only
    omega
  · rw [List.map_cons, List.sum_cons]
    dsimp only
    omega
  · intro v hv
    rcases List.mem_cons.mp hv with rfl | hv
    · exact hs.depth_eq.symm ▸ ⟨hpos, hdepth⟩
    · exact hs.depth_le v hv

theorem chargeValue_triple :
    Triple (Observed.At limits depth 0 0) (watching chargeValue)
      (fun _ s => s.At limits depth 1 0) (Observed.Within limits) := by
  intro s hs
  by_cases hnone : s.decoder.valuesLeft = 0
  · rw [watching, chargeValue, if_pos hnone]
    exact hs.within
  · rw [watching, chargeValue, if_neg hnone]
    have := hs.values_le
    exact ⟨hs.limits_eq, hs.depth_eq, by dsimp only; omega, hs.payload_le, hs.depth_le⟩

/-- Below the greatest depth of all, entering a level that is too deep is an error. -/
theorem enterDepth_triple (hlimit : limits.maxDepth < USIZE_MAX) :
    Triple (Observed.At limits depth values payload) (watching enterDepth)
      (fun _ s => depth + 1 ≤ limits.maxDepth ∧ s.At limits (depth + 1) values payload)
      (Observed.Within limits) := by
  intro s hs
  have hdepth := hs.depth_eq
  have hlimits := hs.limits_eq
  by_cases hdeep : min (s.decoder.depth + 1) USIZE_MAX > s.decoder.limits.maxDepth
  · rw [watching, enterDepth, if_pos hdeep]
    exact ⟨hs.within.values_le, hs.within.payload_le, hs.depth_le⟩
  · rw [watching, enterDepth, if_neg hdeep]
    rw [hdepth, hlimits] at hdeep
    refine ⟨by omega, hlimits, ?_, hs.values_le, hs.payload_le, hs.depth_le⟩
    dsimp only
    omega

theorem watchUpdate_triple (ptr : Nat) :
    Triple (Observed.At limits depth values payload)
      (watching (update ({ · with currentPtr := ptr })))
      (fun _ s => s.At limits depth values payload) (Observed.Within limits) :=
  fun _ hs => hs.spends ((Decoder.Spends.refl _).moved ptr)

section element

variable {element : Watch Visited}
  (helement : Triple (Observed.At limits depth 0 0) element
    (fun _ s => s.At limits depth 0 0) (Observed.Within limits))

include helement

theorem visitSeq_triple (count : Nat) :
    Triple (Observed.At limits depth 0 0) (visitSeq element count)
      (fun _ s => s.At limits depth 0 0) (Observed.Within limits) := by
  induction count with
  | zero => exact .pure fun _ hs => hs
  | succ count ih => exact helement.bind fun _ => ih.bind fun _ => .pure fun _ hs => hs

theorem visitMap_triple (count : Nat) :
    Triple (Observed.At limits depth 0 0) (visitMap element count)
      (fun _ s => s.At limits depth 0 0) (Observed.Within limits) := by
  induction count using Nat.twoStepInduction with
  | zero => exact .pure fun _ hs => hs
  | one => exact helement.bind fun _ => .fail fun _ hs => hs.within
  | more count ih _ =>
    exact helement.bind fun _ => helement.bind fun _ => ih.bind fun _ => .pure fun _ hs => hs

theorem watchArray_triple (hpos : 0 < depth) (hdepth : depth ≤ limits.maxDepth) (size : Nat) :
    Triple (Observed.At limits depth 1 0) (watchArray element size)
      (fun _ s => s.At limits depth 0 0) (Observed.Within limits) := by
  intro s hs
  by_cases hlarge : size > s.decoder.valuesLeft
  · rw [watchArray, withObserved, if_pos hlarge, watching, decodeArray, withDecoder, if_pos hlarge]
    exact hs.within
  · have hrun : Triple (Observed.At limits depth 1 0) (do
        noteVisit 0
        let elements ← visitSeq element size
        return Visited.array elements) (fun _ s => s.At limits depth 0 0)
        (Observed.Within limits) :=
      (noteVisit_triple hpos hdepth).bind fun _ => (visitSeq_triple helement _).bind fun _ =>
        .pure fun _ hs => hs
    rw [watchArray, withObserved, if_neg hlarge]
    exact hrun s hs

theorem watchMap_triple (hpos : 0 < depth) (hdepth : depth ≤ limits.maxDepth) (size : Nat) :
    Triple (Observed.At limits depth 1 0) (watchMap element size)
      (fun _ s => s.At limits depth 0 0) (Observed.Within limits) := by
  intro s hs
  by_cases hlarge : size * 2 > s.decoder.valuesLeft
  · rw [watchMap, withObserved, if_pos hlarge, watching, decodeMap, withDecoder, if_pos hlarge]
    exact hs.within
  · have hrun : Triple (Observed.At limits depth 1 0) (do
        noteVisit 0
        let entries ← visitMap element (size * 2)
        return Visited.map entries) (fun _ s => s.At limits depth 0 0)
        (Observed.Within limits) :=
      (noteVisit_triple hpos hdepth).bind fun _ => (visitMap_triple helement _).bind fun _ =>
        .pure fun _ hs => hs
    rw [watchMap, withObserved, if_neg hlarge]
    exact hrun s hs

theorem watchValue_triple (hpos : 0 < depth) (hdepth : depth ≤ limits.maxDepth)
    (size typeNum : Nat) :
    Triple (Observed.At limits depth 1 0) (watchValue element size typeNum)
      (fun _ s => s.At limits depth 0 0) (Observed.Within limits) := by
  unfold watchValue
  split
  · exact watchMap_triple helement hpos hdepth size
  · split
    · exact watchArray_triple helement hpos hdepth size
    · next hmap harray =>
      have hscalar := @watching_triple _ limits depth 1 0 _ Visited.borrowed (fun _ => True)
        fun d₀ => (@decodeScalar_triple d₀ size typeNum hmap harray).consequence (fun _ h => h)
          (fun _ _ h => ⟨trivial, h⟩) fun _ h => h
      refine hscalar.bind fun result => ?_
      rw [Nat.zero_add]
      exact ((noteVisit_triple hpos hdepth).bind fun _ => .pure fun _ hs => hs).consequence
        (fun _ hs => hs.2) (fun _ _ hs => hs) fun _ hs => hs

end element

theorem watchAnyAround_triple (hlimit : limits.maxDepth < USIZE_MAX) {inner : Watch Visited}
    (hinner : depth + 1 ≤ limits.maxDepth → Triple (Observed.At limits (depth + 1) 1 0) inner
      (fun _ s => ∃ depth, s.At limits depth 0 0) (Observed.Within limits)) :
    Triple (Observed.At limits depth 0 0) (watchAnyAround inner)
      (fun _ s => s.At limits depth 0 0) (Observed.Within limits) := by
  refine chargeValue_triple.bind fun _ => .of_state fun s hs => ?_
  have hrun : Triple (Observed.At limits depth 1 0) (do
      watching enterDepth
      watchRestoring s.decoder.depth inner) (fun _ s => s.At limits depth 0 0)
      (Observed.Within limits) := by
    refine (enterDepth_triple hlimit).bind fun _ => ?_
    rintro t ⟨hdeep, ht⟩
    have hinner := hinner hdeep t ht
    rw [watchRestoring]
    rcases hresult : inner t with ⟨outcome, t'⟩
    rw [hresult] at hinner
    cases outcome with
    | ok value =>
      obtain ⟨_, h⟩ := hinner
      exact ⟨h.limits_eq, hs.depth_eq, h.values_le, h.payload_le, h.depth_le⟩
    | err error => exact ⟨hinner.values_le, hinner.payload_le, hinner.depth_le⟩
    | panic => exact hinner
  intro t ht
  subst ht
  exact hrun t hs

theorem watchAnyInner_triple (hlimit : limits.maxDepth < USIZE_MAX) (levels : Nat)
    (restorePtr : Option Nat) (hpos : 0 < depth) (hdepth : depth ≤ limits.maxDepth)
    (hlevels : limits.maxDepth < levels + depth) :
    Triple (Observed.At limits depth 1 0) (watchAnyInner levels restorePtr)
      (fun _ s => ∃ depth, s.At limits depth 0 0) (Observed.Within limits) := by
  induction levels generalizing depth restorePtr with
  | zero => omega
  | succ levels ih =>
    have hheader := @watching_triple _ limits depth 1 0 sizeAndType (fun _ => 0) (fun _ => True)
      fun d₀ => (@sizeAndType_triple d₀ 0).consequence (fun _ h => h)
        (fun _ _ h => ⟨trivial, h.2⟩) fun _ h => h
    refine hheader.bind fun ⟨size, typeNum⟩ => ?_
    dsimp only
    split
    · have hpointer := @watching_triple _ limits depth 1 0 (decodePointer size) (fun _ => 0)
        (fun _ => True) fun d₀ => (@decodePointer_triple d₀ 0 size).consequence
          (fun _ h => h) (fun _ _ h => ⟨trivial, h.2⟩) fun _ h => h
      refine (hpointer.bind fun target => .of_state fun s hs => ?_).consequence
        (fun _ h => h.2) (fun _ _ h => h) fun _ h => h
      intro t ht
      subst ht
      by_cases hbeyond : target ≥ t.decoder.buf.length
      · rw [withObserved, if_pos hbeyond]
        exact hs.2.within
      · rw [withObserved, if_neg hbeyond]
        refine ((enterDepth_triple hlimit).bind fun _ => ?_) _ hs.2
        intro t ht
        exact ((watchUpdate_triple target).bind fun _ => ih _ (by omega) ht.1 (by omega)) t ht.2
    · have helement : Triple (Observed.At limits depth 0 0)
          (watchAnyAround (watchAnyInner levels none))
          (fun _ s => s.At limits depth 0 0) (Observed.Within limits) :=
        watchAnyAround_triple hlimit fun hdeep => ih none (by omega) hdeep (by omega)
      refine ((watchValue_triple helement hpos hdepth size typeNum).bind
        fun result => ?_).consequence (fun _ h => h.2) (fun _ _ h => h) fun _ h => h
      cases restorePtr with
      | none => exact .pure fun _ hs => ⟨depth, hs⟩
      | some ptr =>
        exact (watchUpdate_triple ptr).bind fun _ => .pure fun _ hs => ⟨depth, hs⟩

end budgets

/-! ## Every decode is bounded, below the greatest depth of all -/

/--
Decoding a value tree ends without a panic, in a run that needs finitely many
levels, and the visits of that run keep to the limits.
-/
def BoundedDecode (limits : DecodeLimits) (buf : Bytes) (startPtr : Nat) : Prop :=
  ∃ (levels : Nat) (outcome : Outcome MaxMindDBError Visited) (s : Observed),
    watchAnyAround (watchAnyInner levels none) ⟨.withLimits buf startPtr limits, []⟩ =
      (outcome, s) ∧
    element levels (.withLimits buf startPtr limits) = (outcome, s.decoder) ∧
    outcome ≠ .panic ∧ s.Within limits

theorem erases_run {levels : Nat} {d : Decoder} :
    element levels d = ((watchAnyAround (watchAnyInner levels none) ⟨d, []⟩).1,
      (watchAnyAround (watchAnyInner levels none) ⟨d, []⟩).2.decoder) :=
  erases_watchAnyAround (erases_watchAnyInner levels none) ⟨d, []⟩

theorem at_start (limits : DecodeLimits) (buf : Bytes) (startPtr : Nat) :
    Observed.At limits 0 0 0 ⟨.withLimits buf startPtr limits, []⟩ where
  limits_eq := rfl
  depth_eq := rfl
  values_le := by simp [Decoder.withLimits]
  payload_le := by simp [Decoder.withLimits]
  depth_le := by simp

theorem boundedDecode_of_triple {limits : DecodeLimits} {levels : Nat}
    (h : Triple (Observed.At limits 0 0 0) (watchAnyAround (watchAnyInner levels none))
      (fun _ s => s.At limits 0 0 0) (Observed.Within limits)) (buf : Bytes) (startPtr : Nat) :
    BoundedDecode limits buf startPtr := by
  have hend := h _ (at_start limits buf startPtr)
  have herases := @erases_run levels (.withLimits buf startPtr limits)
  rcases hrun : watchAnyAround (watchAnyInner levels none)
    ⟨.withLimits buf startPtr limits, []⟩ with ⟨outcome, s⟩
  rw [hrun] at hend herases
  refine ⟨levels, outcome, s, hrun, herases, ?_, ?_⟩
  · rintro rfl
    exact hend
  · cases outcome with
    | ok value => exact hend.within
    | err error => exact hend
    | panic => exact hend.elim

theorem boundedDecode_of_depth {limits : DecodeLimits} (hlimit : limits.maxDepth < USIZE_MAX)
    (buf : Bytes) (startPtr : Nat) : BoundedDecode limits buf startPtr := by
  refine @boundedDecode_of_triple limits limits.maxDepth ?_ buf startPtr
  exact watchAnyAround_triple hlimit fun hdeep =>
    watchAnyInner_triple hlimit limits.maxDepth none (by omega) hdeep (by omega)

theorem boundedDecode_of_no_values {limits : DecodeLimits} (hvalues : limits.maxValues = 0)
    (buf : Bytes) (startPtr : Nat) : BoundedDecode limits buf startPtr := by
  refine @boundedDecode_of_triple limits 0 ?_ buf startPtr
  have hnone : Triple (Observed.At limits 0 0 0) (watching chargeValue) (fun _ _ => False)
      (Observed.Within limits) := by
    intro s hs
    have := hs.values_le
    rw [watching, chargeValue, if_pos (by omega)]
    exact hs.within
  exact hnone.bind fun _ s hs => hs.elim

/-- A pointer to itself: a depth that no counter passes never ends the chain. -/
theorem selfPointer_panics {d : Decoder} (hbuf : d.buf = [0x20, 0x00]) (hptr : d.currentPtr = 0)
    (hlimit : d.limits.maxDepth = USIZE_MAX) (levels : Nat) (restorePtr : Option Nat) :
    (decodeAnyInner levels restorePtr d).1 = .panic := by
  induction levels generalizing d restorePtr with
  | zero => rfl
  | succ levels ih =>
    have hreads : d.Reads (encodePointerRaw 0 ++ []) := by
      refine ⟨by simp [hptr], ?_⟩
      rw [hptr, hbuf]
      rfl
    obtain ⟨size, d', hheader, hpointer⟩ := pointer_encoded 0 hreads
    rw [decodeAnyInner, run_bind, hheader]
    dsimp only
    rw [if_pos rfl, run_bind, hpointer]
    dsimp only
    rw [withDecoder, if_neg (by simp [Decoder.skip, hbuf]), run_bind,
      enterDepth_eq_ok (u := ()).mpr ⟨?_, rfl⟩]
    · exact @ih { d.skip (encodePointerRaw 0).length with
          depth := min (d.depth + 1) USIZE_MAX, currentPtr := 0 } hbuf rfl hlimit _
    · exact hlimit.symm ▸ Nat.min_le_right _ _

theorem not_boundedDecode {limits : DecodeLimits} (hlimit : limits.maxDepth = USIZE_MAX)
    (hvalues : limits.maxValues ≠ 0) : ¬ BoundedDecode limits [0x20, 0x00] 0 := by
  rintro ⟨levels, outcome, s, -, hrun, hpanic, -⟩
  apply hpanic
  have hcharge : chargeValue (.withLimits [0x20, 0x00] 0 limits) =
      (.ok (), { Decoder.withLimits [0x20, 0x00] 0 limits with
        valuesLeft := limits.maxValues - 1 }) :=
    chargeValue_eq_ok.mpr ⟨Nat.pos_of_ne_zero hvalues, rfl⟩
  unfold element decodeAnyAround at hrun
  rw [run_bind, hcharge] at hrun
  dsimp only at hrun
  rw [withDecoder, run_bind, (enterDepth_eq_ok (u := ())).mpr ⟨?_, rfl⟩] at hrun
  · have hinner := @selfPointer_panics (Decoder.entered (.withLimits [0x20, 0x00] 0 limits))
      rfl rfl hlimit levels none
    exact (congrArg Prod.fst hrun).symm.trans hinner
  · exact hlimit.symm ▸ Nat.min_le_right _ _

/--
Limits bound the decoding of every buffer from every offset, unless they set the
depth to the greatest number there is, which a saturating counter never passes.
Sizes, types and pointers leave room for the arithmetic on them.
-/
theorem decoding_bounded_iff (limits : DecodeLimits) :
    ((∀ (buf : Bytes) (startPtr : Nat), BoundedDecode limits buf startPtr) ↔
      limits.maxDepth < USIZE_MAX ∨ limits.maxValues = 0) ∧
    (∀ (d d' : Decoder) (size typeNum : Nat), sizeAndType d = (.ok (size, typeNum), d') →
      size < 2 ^ 25 ∧ typeNum < 263) ∧
    ∀ (d d' : Decoder) (size target : Nat), decodePointer size d = (.ok target, d') →
      target < 2 ^ 32 ∧ 0 < d'.currentPtr := by
  refine ⟨⟨fun h => ?_, ?_⟩, ?_, ?_⟩
  · by_contra hneither
    obtain ⟨hdepth, hvalues⟩ := not_or.mp hneither
    have hfits := limits.depthFits
    exact not_boundedDecode (by omega) hvalues (h _ _)
  · rintro (hdepth | hvalues) buf startPtr
    · exact boundedDecode_of_depth hdepth buf startPtr
    · exact boundedDecode_of_no_values hvalues buf startPtr
  · intro d d' size typeNum h
    have hheader := @sizeAndType_triple d 0 d (.refl d)
    rw [h] at hheader
    exact hheader.1
  · intro d d' size target h
    have hpointer := @decodePointer_triple d 0 size d (.refl d)
    rw [h] at hpointer
    exact hpointer.1

theorem decoding_bounded_selfPointer : BoundedDecode {} [0x20, 0x00] 0 :=
  (decoding_bounded_iff {}).1.mpr (.inl (by decide)) _ _

theorem decoding_unbounded :
    ¬ BoundedDecode ⟨USIZE_MAX, 65536, 2097152, le_rfl⟩ [0x20, 0x00] 0 :=
  not_boundedDecode rfl (by decide)

end Stdx.MaxMindDb
