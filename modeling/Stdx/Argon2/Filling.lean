import Mathlib
import Stdx.Foundation.Barrier

/-!
# The memory of Argon2

`crypto/src/argon2/argon2.rs` fills its arena of `p` lanes by `q` columns in `t` passes
of four slices.  Every block is made from the block before it in its lane and from a
reference block that `index_alpha` chooses.  The lanes of a slice are filled by threads
of their own that meet at a barrier after each slice, in memory that is not initialised.
A step is `none` where the code would read a block that has not been written, leave the
arena or borrow one block twice.
-/

namespace Stdx.Argon2

open Stdx.Foundation

def SYNC_POINTS : Nat := 4

def ARGON2D : Nat := 0

def ARGON2I : Nat := 1

def ARGON2ID : Nat := 2

/-! ## The compression function -/

structure Block where
  v : Vector (BitVec 64) 128

def Block.zero : Block := ⟨Vector.replicate 128 0⟩

def Block.xorWith (self other : Block) : Block := ⟨self.v.zipWith (· ^^^ ·) other.v⟩

/-- `x as u32 as u64` -/
def low (x : BitVec 64) : BitVec 64 := x &&& 0xFFFFFFFF

/-- `a + b + 2 * low(a) * low(b)`, wrapping -/
def mulAdd (a b : BitVec 64) : BitVec 64 := a + b + 2 * (low a * low b)

def gb (a b c d : BitVec 64) : BitVec 64 × BitVec 64 × BitVec 64 × BitVec 64 :=
  let a := mulAdd a b
  let d := (d ^^^ a).rotateRight 32
  let c := mulAdd c d
  let b := (b ^^^ c).rotateRight 24
  let a := mulAdd a b
  let d := (d ^^^ a).rotateRight 16
  let c := mulAdd c d
  let b := (b ^^^ c).rotateRight 63
  (a, b, c, d)

def gbAt (index : Fin 16 → Fin 128) (b : Vector (BitVec 64) 128)
    (i : Fin 16 × Fin 16 × Fin 16 × Fin 16) :
    Vector (BitVec 64) 128 :=
  let (i0, i1, i2, i3) := i
  let (v0, v1, v2, v3) := gb (b.get (index i0)) (b.get (index i1)) (b.get (index i2))
    (b.get (index i3))
  (((b.set (index i0) v0).set (index i1) v1).set (index i2) v2).set (index i3) v3

local instance neZero_words : NeZero 16 := ⟨Nat.succ_ne_zero 15⟩

def roundNomsg (b : Vector (BitVec 64) 128) (index : Fin 16 → Fin 128) : Vector (BitVec 64) 128 :=
  [(0, 4, 8, 12), (1, 5, 9, 13), (2, 6, 10, 14), (3, 7, 11, 15),
    (0, 5, 10, 15), (1, 6, 11, 12), (2, 7, 8, 13), (3, 4, 9, 14)].foldl (gbAt index) b

/-- The words `16 * i, 16 * i + 1, ..` -/
def rowWord (i : Fin 8) (k : Fin 16) : Fin 128 := ⟨16 * i + k, by omega⟩

/-- The words `2 * i, 2 * i + 1, 2 * i + 16, 2 * i + 17, ..` -/
def columnWord (i : Fin 8) (k : Fin 16) : Fin 128 := ⟨2 * i + 16 * (k / 2) + k % 2, by omega⟩

def fillBlockRef (prev reference cur : Block) (withXor : Bool) : Block :=
  let r := prev.xorWith reference
  let t := if withXor then r.xorWith cur else r
  let rows := (List.finRange 8).foldl (fun v i => roundNomsg v (rowWord i)) r.v
  let columns := (List.finRange 8).foldl (fun v i => roundNomsg v (columnWord i)) rows
  t.xorWith ⟨columns⟩

/-- The compression kernel chosen for the processor.  `cur` is read when `with_xor` is set. -/
structure Backend where
  fillBlock : Block → Block → Option Block → Bool → Option Block
  isSome : ∀ prev reference cur withXor, (withXor = true → cur.isSome) →
    (fillBlock prev reference cur withXor).isSome

def Backend.scalar : Backend where
  fillBlock prev reference cur withXor :=
    if withXor then cur.map fun cur => fillBlockRef prev reference cur true
    else some (fillBlockRef prev reference .zero false)
  isSome := by
    intro prev reference cur withXor h
    cases withXor with
    | false => rfl
    | true => simpa using h

/-! ## The arena -/

structure Memory where
  blocks : List (Option Block)

namespace Memory

def uninit (len : Nat) : Memory := ⟨List.replicate len none⟩

def len (self : Memory) : Nat := self.blocks.length

def get (self : Memory) (index : Nat) : Option Block := (self.blocks[index]?).join

def write (self : Memory) (index : Nat) (block : Block) : Option Memory :=
  if index < self.len then some ⟨self.blocks.set index (some block)⟩ else none

def firstWord (self : Memory) (index : Nat) : Option (BitVec 64) :=
  (self.get index).map fun block => block.v.get 0

variable {memory memory' : Memory} {i j : Nat} {x y : Block}

theorem write_eq_some (h : memory.write i x = some memory') :
    i < memory.len ∧ memory' = ⟨memory.blocks.set i (some x)⟩ := by
  simp only [write] at h
  split at h
  · next hlt => exact ⟨hlt, (Option.some.inj h).symm⟩
  · cases h

theorem len_write (h : memory.write i x = some memory') : memory'.len = memory.len := by
  obtain ⟨-, rfl⟩ := write_eq_some h
  exact List.length_set

theorem get_write_self (h : memory.write i x = some memory') : memory'.get i = some x := by
  obtain ⟨hlt, rfl⟩ := write_eq_some h
  rw [get, List.getElem?_set_self hlt]
  rfl

theorem get_write_of_ne (h : memory.write i x = some memory') (hne : i ≠ j) :
    memory'.get j = memory.get j := by
  obtain ⟨-, rfl⟩ := write_eq_some h
  rw [get, get, List.getElem?_set_ne hne]

theorem firstWord_write_of_ne (h : memory.write i x = some memory') (hne : i ≠ j) :
    memory'.firstWord j = memory.firstWord j := by
  rw [firstWord, firstWord, get_write_of_ne h hne]

theorem write_isSome (memory : Memory) (h : i < memory.len) (x : Block) :
    ∃ memory', memory.write i x = some memory' :=
  ⟨_, if_pos h⟩

theorem write_comm (hne : i ≠ j) (x y : Block) :
    ((memory.write i x).bind fun m => m.write j y) =
      (memory.write j y).bind fun m => m.write i x := by
  by_cases hi : i < memory.blocks.length
  · by_cases hj : j < memory.blocks.length
    · simp [write, len, hi, hj, List.set_comm _ _ hne]
    · simp [write, len, hi, hj]
  · by_cases hj : j < memory.blocks.length
    · simp [write, len, hi, hj]
    · simp [write, len, hi, hj]

end Memory

/-! ## Choosing the blocks -/

/-- The arguments of `fill_memory` that stay the same: the type, the lanes, the columns of a
lane, the passes and the blocks of the arena. -/
structure Shape where
  argonType : Nat
  p : Nat
  q : Nat
  t : Nat
  mPrime : Nat
  p_pos : 0 < p
  t_pos : 0 < t
  q_eq : q = SYNC_POINTS * (q / SYNC_POINTS)
  two_le : 2 ≤ q / SYNC_POINTS
  mPrime_eq : mPrime = p * q
  mPrime_lt : mPrime < 2 ^ 32

/-- One round of the loop of `fill_segment`. -/
structure Position where
  pass : Nat
  lane : Nat
  slice : Nat
  s : Nat

def Shape.segmentLength (f : Shape) : Nat := f.q / SYNC_POINTS

namespace Position

variable (f : Shape) (pos : Position)

def column : Nat := pos.slice * f.segmentLength + pos.s

def prevColumn : Nat := if pos.column f = 0 then f.q - 1 else pos.column f - 1

def curIndex : Nat := pos.lane * f.q + pos.column f

def prevIndex : Nat :=
  if pos.column f = 0 then pos.lane * f.q + f.q - 1 else pos.lane * f.q + pos.column f - 1

end Position

def referenceAreaSize (pass slice segmentLength indexInSegment q : Nat) (sameLane : Bool) : Nat :=
  if pass = 0 then
    if slice = 0 then indexInSegment - 1
    else if sameLane then slice * segmentLength + indexInSegment - 1
    else slice * segmentLength - if indexInSegment = 0 then 1 else 0
  else if sameLane then q - segmentLength + indexInSegment - 1
  else q - segmentLength - if indexInSegment = 0 then 1 else 0

def startPosition (pass slice segmentLength : Nat) : Nat :=
  if pass = 0 then 0
  else if slice = SYNC_POINTS - 1 then 0
  else (slice + 1) * segmentLength

/-- Of its sums of `u32` only the last one can wrap, as it does in a release build; a
debug build panics there. -/
def indexAlpha (pass slice segmentLength indexInSegment q : Nat) (sameLane : Bool)
    (j1 : Nat) : Nat :=
  let area := referenceAreaSize pass slice segmentLength indexInSegment q sameLane
  if area = 0 then 0
  else
    let x := (j1 * j1) >>> 32
    let y := (area * x) >>> 32
    let relativePosition := area - 1 - y
    (startPosition pass slice segmentLength + relativePosition) % 2 ^ 32 % q

def refLane (f : Shape) (pos : Position) (word : BitVec 64) : Nat :=
  if pos.pass = 0 ∧ pos.slice = 0 then pos.lane else (word.toNat >>> 32) % f.p

def refColumn (f : Shape) (pos : Position) (word : BitVec 64) : Nat :=
  indexAlpha pos.pass pos.slice f.segmentLength pos.s f.q (refLane f pos word == pos.lane)
    (word.toNat % 2 ^ 32)

def refIndex (f : Shape) (pos : Position) (word : BitVec 64) : Nat :=
  refLane f pos word * f.q + refColumn f pos word

def accesses (f : Shape) (pos : Position) (word : BitVec 64) : List Nat :=
  [pos.prevIndex f, refIndex f pos word, pos.curIndex f]

/-! ## Where the reference block lies -/

/-- The positions that the loops of `fill_memory` go through. -/
structure Position.Within (f : Shape) (pos : Position) : Prop where
  lane_lt : pos.lane < f.p
  slice_lt : pos.slice < SYNC_POINTS
  s_lt : pos.s < f.segmentLength
  two_le : pos.pass = 0 → pos.slice = 0 → 2 ≤ pos.s

variable {f : Shape} {pos : Position}

theorem Shape.q_eq_four (f : Shape) : f.q = 4 * f.segmentLength := f.q_eq

theorem Shape.q_lt (f : Shape) : f.q < 2 ^ 32 :=
  lt_of_le_of_lt (Nat.le_mul_of_pos_left f.q f.p_pos) (f.mPrime_eq ▸ f.mPrime_lt)

theorem Position.Within.column_lt (h : pos.Within f) : pos.column f < f.q := by
  have hslice := h.slice_lt
  have hs := h.s_lt
  rw [column, f.q_eq_four]
  rw [SYNC_POINTS] at hslice
  have hle : pos.slice * f.segmentLength ≤ 3 * f.segmentLength :=
    Nat.mul_le_mul_right _ (by omega)
  omega

theorem wrapped_mod {q start r : Nat} (hq : q < 2 ^ 32) (hstart : start < q) (hr : r < q) :
    ∃ r' ≤ r, (start + r) % 2 ^ 32 % q = (start + r') % q := by
  by_cases hsum : start + r < 2 ^ 32
  · exact ⟨r, le_refl r, by rw [Nat.mod_eq_of_lt hsum]⟩
  · refine ⟨r - (2 ^ 32 - q), Nat.sub_le _ _, ?_⟩
    have hwrap : (start + r) % 2 ^ 32 = start + r - 2 ^ 32 := by omega
    have hback : start + (r - (2 ^ 32 - q)) = start + r - 2 ^ 32 + q := by omega
    rw [hwrap, hback, Nat.add_mod_right]

theorem indexAlpha_eq {pass slice s area : Nat} {sameLane : Bool} (j1 : Nat)
    (harea : referenceAreaSize pass slice f.segmentLength s f.q sameLane = area)
    (hpos : 0 < area) (hle : area ≤ f.q)
    (hstart : startPosition pass slice f.segmentLength < f.q) :
    ∃ r < area, indexAlpha pass slice f.segmentLength s f.q sameLane j1 =
      (startPosition pass slice f.segmentLength + r) % f.q := by
  have hrelative : ∀ y, area - 1 - y < area := by
    intro y
    omega
  obtain ⟨r, hr, heq⟩ := wrapped_mod f.q_lt hstart
    (lt_of_lt_of_le (hrelative ((area * ((j1 * j1) >>> 32)) >>> 32)) hle)
  refine ⟨r, lt_of_le_of_lt hr (hrelative _), ?_⟩
  rw [← heq, indexAlpha, harea, if_neg hpos.ne']

theorem mod_window {q x : Nat} (h : x < 2 * q) : x % q = x ∧ x < q ∨ x % q = x - q ∧ q ≤ x := by
  by_cases hlt : x < q
  · exact Or.inl ⟨Nat.mod_eq_of_lt hlt, hlt⟩
  · refine Or.inr ⟨?_, by omega⟩
    rw [Nat.mod_eq_sub_mod (by omega), Nat.mod_eq_of_lt (by omega)]

theorem referenceAreaSize_bounds {pass slice s L q : Nat} (sameLane : Bool) (hslice : slice < 4)
    (hs : s < L) (hlength : 2 ≤ L) (hq : q = 4 * L) (htwo : pass = 0 → slice = 0 → 2 ≤ s)
    (hfirst : pass = 0 → slice = 0 → sameLane = true) :
    0 < referenceAreaSize pass slice L s q sameLane ∧
      referenceAreaSize pass slice L s q sameLane ≤ q := by
  subst hq
  interval_cases slice <;> cases sameLane <;> by_cases hpass : pass = 0 <;>
    simp only [referenceAreaSize, hpass] at * <;> grind

theorem startPosition_lt (pass : Nat) {slice L q : Nat} (hslice : slice < 4) (hlength : 2 ≤ L)
    (hq : q = 4 * L) : startPosition pass slice L < q := by
  subst hq
  interval_cases slice <;> by_cases hpass : pass = 0 <;>
    simp only [startPosition, SYNC_POINTS, hpass] <;> grind

/-- What the code may refer to from a position: in its own lane neither the block being
written nor the one before it, in another lane nothing of the slice being filled, and in
the first pass only what has been written. -/
structure Allowed (f : Shape) (pos : Position) (sameLane : Bool) (c : Nat) : Prop where
  lt : c < f.q
  same : sameLane = true → c ≠ pos.column f ∧ c ≠ pos.prevColumn f
  other : sameLane = false →
    c < pos.slice * f.segmentLength ∨ (pos.slice + 1) * f.segmentLength ≤ c
  first : pos.pass = 0 → c < if sameLane then pos.column f else pos.slice * f.segmentLength

/-- The seven cases of `index_alpha`: the window of the reference area ends before the
block that precedes the position, or before the slice it lies in. -/
theorem window_allowed {pass lane slice s r : Nat} {sameLane : Bool} (hslice : slice < 4)
    (hs : s < f.segmentLength) (htwo : pass = 0 → slice = 0 → 2 ≤ s)
    (hfirst : pass = 0 → slice = 0 → sameLane = true)
    (hr : r < referenceAreaSize pass slice f.segmentLength s f.q sameLane) :
    Allowed f ⟨pass, lane, slice, s⟩ sameLane
      ((startPosition pass slice f.segmentLength + r) % f.q) := by
  have hq := f.q_eq_four
  have hlength : 2 ≤ f.segmentLength := f.two_le
  have harea := referenceAreaSize_bounds sameLane hslice hs hlength hq htwo hfirst
  have hstart := startPosition_lt pass hslice hlength hq
  have hmod := mod_window (q := f.q) (x := startPosition pass slice f.segmentLength + r) (by omega)
  generalize (startPosition pass slice f.segmentLength + r) % f.q = c at hmod
  generalize hL : f.segmentLength = L at *
  generalize hQ : f.q = q at *
  subst hq
  constructor <;> simp only [Position.column, Position.prevColumn, hL, hQ] <;>
    interval_cases slice <;> cases sameLane <;> by_cases hpass : pass = 0 <;>
    simp only [referenceAreaSize, startPosition, SYNC_POINTS, hpass] at * <;> grind

theorem indexAlpha_allowed (h : pos.Within f) {sameLane : Bool}
    (hfirst : pos.pass = 0 → pos.slice = 0 → sameLane = true) (j1 : Nat) :
    Allowed f pos sameLane
      (indexAlpha pos.pass pos.slice f.segmentLength pos.s f.q sameLane j1) := by
  have hlength : 2 ≤ f.segmentLength := f.two_le
  have harea := referenceAreaSize_bounds sameLane h.slice_lt h.s_lt hlength
    f.q_eq_four h.two_le hfirst
  have hstart := startPosition_lt pos.pass h.slice_lt hlength f.q_eq_four
  obtain ⟨r, hr, heq⟩ := indexAlpha_eq j1 rfl harea.1 harea.2 hstart
  rw [heq]
  exact window_allowed h.slice_lt h.s_lt h.two_le hfirst hr

theorem refLane_lt (h : pos.Within f) (word : BitVec 64) : refLane f pos word < f.p := by
  rw [refLane]
  split
  · exact h.lane_lt
  · exact Nat.mod_lt _ f.p_pos

theorem refColumn_allowed (h : pos.Within f) (word : BitVec 64) :
    Allowed f pos (refLane f pos word == pos.lane) (refColumn f pos word) := by
  refine indexAlpha_allowed h ?_ _
  intro hpass hslice
  rw [refLane, if_pos ⟨hpass, hslice⟩, beq_self_eq_true]

/-! ## One block -/

/-- Argon2i, and the first half of the first pass of Argon2id, take their words from a
stream that does not depend on the memory. -/
def needPseudoRands (f : Shape) (pass slice : Nat) : Bool :=
  f.argonType = ARGON2I || (f.argonType = ARGON2ID && pass = 0 && slice < 2)

def addressInput (f : Shape) (pass lane slice counter : Nat) : Block :=
  ⟨(((((((Vector.replicate 128 0).set 0 (BitVec.ofNat 64 pass)).set 1 (BitVec.ofNat 64 lane)).set 2
    (BitVec.ofNat 64 slice)).set 3 (BitVec.ofNat 64 f.mPrime)).set 4 (BitVec.ofNat 64 f.t)).set 5
    (BitVec.ofNat 64 f.argonType)).set 6 (BitVec.ofNat 64 counter)⟩

def generateAddressBlock (f : Shape) (pass lane slice counter : Nat) : Block :=
  let tmp := fillBlockRef .zero (addressInput f pass lane slice counter) .zero false
  fillBlockRef .zero tmp .zero false

structure Addresses where
  words : Block
  chunk : Nat

def Addresses.fresh : Addresses := ⟨.zero, 2 ^ 32 - 1⟩

def Addresses.at (addresses : Addresses) (f : Shape) (pos : Position) : Addresses :=
  if pos.s / 128 ≠ addresses.chunk then
    ⟨generateAddressBlock f pos.pass pos.lane pos.slice (pos.s / 128 + 1), pos.s / 128⟩
  else addresses

def Addresses.word (addresses : Addresses) (pos : Position) : BitVec 64 :=
  addresses.words.v.get ⟨pos.s % 128, Nat.mod_lt _ (by decide)⟩

variable (backend : Backend)

def fillWith (f : Shape) (memory : Memory) (pos : Position) (word : BitVec 64) : Option Memory :=
  if (accesses f pos word).Nodup then do
    let prev ← memory.get (pos.prevIndex f)
    let reference ← memory.get (refIndex f pos word)
    let block ← backend.fillBlock prev reference (memory.get (pos.curIndex f)) (pos.pass != 0)
    memory.write (pos.curIndex f) block
  else none

def fillNext (f : Shape) (state : Memory × Addresses) (pos : Position) :
    Option (Memory × Addresses) :=
  if needPseudoRands f pos.pass pos.slice then
    let addresses := state.2.at f pos
    (fillWith backend f state.1 pos (addresses.word pos)).map fun memory => (memory, addresses)
  else
    (state.1.firstWord (pos.prevIndex f)).bind fun word =>
      (fillWith backend f state.1 pos word).map fun memory => (memory, state.2)

/-- `for s in start_index..segment_length` -/
def segment (f : Shape) (lane pass slice : Nat) : List Position :=
  let start := if pass = 0 ∧ slice = 0 then 2 else 0
  (List.range' start (f.segmentLength - start)).map fun s => ⟨pass, lane, slice, s⟩

def fillSegment (f : Shape) (memory : Memory) (lane pass slice : Nat) :
    Option Memory :=
  (exec (fillNext backend f) (memory, Addresses.fresh) (segment f lane pass slice)).map Prod.fst

/-- `for pass in 0..t { for slice in 0..SYNC_POINTS { .. } }` -/
def phases (f : Shape) : List (Nat × Nat) :=
  (List.range f.t).flatMap fun pass => (List.range SYNC_POINTS).map fun slice => (pass, slice)

def fillMemory (f : Shape) (memory : Memory) : Option Memory :=
  exec (fun memory (phase : Nat × Nat) =>
    exec (fun memory lane => fillSegment backend f memory lane phase.1 phase.2) memory
      (List.range f.p)) memory (phases f)

def wordAt (f : Shape) (memory : Memory) (pos : Position) : Option (BitVec 64) :=
  if needPseudoRands f pos.pass pos.slice then
    let words := generateAddressBlock f pos.pass pos.lane pos.slice (pos.s / 128 + 1)
    some (Addresses.word ⟨words, pos.s / 128⟩ pos)
  else memory.firstWord (pos.prevIndex f)

def fillAt (f : Shape) (memory : Memory) (pos : Position) : Option Memory :=
  (wordAt f memory pos).bind (fillWith backend f memory pos)

def positions (f : Shape) : List Position :=
  (phases f).flatMap fun phase => (List.range f.p).flatMap fun lane =>
    segment f lane phase.1 phase.2

variable {memory memory' : Memory} {lane pass slice : Nat}

theorem mem_segment : pos ∈ segment f lane pass slice ↔
    ∃ s, pos = ⟨pass, lane, slice, s⟩ ∧ s < f.segmentLength ∧
      (pass = 0 → slice = 0 → 2 ≤ s) := by
  have hlength : 2 ≤ f.segmentLength := f.two_le
  simp only [segment, List.mem_map, List.mem_range'_1]
  constructor
  · rintro ⟨s, hs, rfl⟩
    refine ⟨s, rfl, ?_, ?_⟩
    · split at hs <;> omega
    · intro hpass hslice
      rw [if_pos ⟨hpass, hslice⟩] at hs
      exact hs.1
  · rintro ⟨s, rfl, hs, htwo⟩
    refine ⟨s, ?_, rfl⟩
    split
    · next h =>
      have htwo := htwo h.1 h.2
      omega
    · omega

theorem segment_within (hlane : lane < f.p) (hslice : slice < SYNC_POINTS)
    (hpos : pos ∈ segment f lane pass slice) : pos.Within f := by
  obtain ⟨s, rfl, hs, htwo⟩ := mem_segment.mp hpos
  exact ⟨hlane, hslice, hs, htwo⟩

/-! ### The buffer of addresses -/

/-- Once it has been filled, the buffer holds the addresses of its chunk of the segment. -/
def Addresses.Holds (f : Shape) (lane pass slice : Nat) (addresses : Addresses) : Prop :=
  addresses.chunk ≠ 2 ^ 32 - 1 →
    addresses.words = generateAddressBlock f pass lane slice (addresses.chunk + 1)

theorem Addresses.Holds.at_eq {addresses : Addresses} (h : addresses.Holds f lane pass slice)
    (hpos : pos ∈ segment f lane pass slice) :
    addresses.at f pos =
      ⟨generateAddressBlock f pos.pass pos.lane pos.slice (pos.s / 128 + 1), pos.s / 128⟩ := by
  obtain ⟨s, rfl, hs, -⟩ := mem_segment.mp hpos
  have hlt := f.q_lt
  have hq := f.q_eq_four
  rw [Addresses.at]
  split
  · rfl
  · next hchunk =>
    rw [not_not] at hchunk
    have hwords := h (by rw [← hchunk]; dsimp only; omega)
    rw [hchunk, ← hwords]

theorem fillNext_eq (memory : Memory) {addresses : Addresses}
    (h : addresses.Holds f lane pass slice)
    (hpos : pos ∈ segment f lane pass slice) :
    ∃ addresses', addresses'.Holds f lane pass slice ∧
      fillNext backend f (memory, addresses) pos =
        (fillAt backend f memory pos).map fun memory => (memory, addresses') := by
  by_cases hneed : needPseudoRands f pos.pass pos.slice = true
  · refine ⟨addresses.at f pos, ?_, ?_⟩
    · rw [h.at_eq hpos]
      obtain ⟨s, rfl, -⟩ := mem_segment.mp hpos
      exact fun _ => rfl
    · rw [fillNext, if_pos hneed, fillAt, wordAt, if_pos hneed, Option.bind_some, h.at_eq hpos]
  · refine ⟨addresses, h, ?_⟩
    rw [fillNext, if_neg hneed, fillAt, wordAt, if_neg hneed, Option.map_bind]
    rfl

theorem fillSegment_eq (f : Shape) (memory : Memory) (lane pass slice : Nat) :
    fillSegment backend f memory lane pass slice =
      exec (fillAt backend f) memory (segment f lane pass slice) := by
  have hrun : ∀ ps : List Position, (∀ pos ∈ ps, pos ∈ segment f lane pass slice) →
      ∀ (memory : Memory) (addresses : Addresses), addresses.Holds f lane pass slice →
        (exec (fillNext backend f) (memory, addresses) ps).map Prod.fst =
          exec (fillAt backend f) memory ps := by
    intro ps
    induction ps with
    | nil => exact fun _ _ _ _ => rfl
    | cons pos ps ih =>
      intro hps memory addresses haddresses
      obtain ⟨addresses', hholds, hnext⟩ := fillNext_eq backend memory haddresses
        (hps pos List.mem_cons_self)
      simp only [exec, hnext]
      cases fillAt backend f memory pos with
      | none => rfl
      | some memory' =>
        exact ih (fun pos hpos => hps pos (List.mem_cons_of_mem _ hpos)) memory' addresses' hholds
  exact hrun _ (fun _ hpos => hpos) memory Addresses.fresh fun hchunk => absurd rfl hchunk

theorem fillMemory_eq (f : Shape) (memory : Memory) :
    fillMemory backend f memory = exec (fillAt backend f) memory (positions f) := by
  simp only [fillMemory, fillSegment_eq, exec_flatMap, positions]

/-! ## Lanes of one slice -/

theorem cell_inj {q lane lane' c c' : Nat} (hc : c < q) (hc' : c' < q)
    (h : lane * q + c = lane' * q + c') : lane = lane' ∧ c = c' := by
  have hlane := congrArg (· / q) h
  have hcolumn := congrArg (· % q) h
  have hq : 0 < q := by omega
  simp only [Nat.add_comm _ c, Nat.add_comm _ c', Nat.add_mul_div_right _ _ hq,
    Nat.add_mul_mod_self_right, Nat.div_eq_of_lt hc, Nat.div_eq_of_lt hc', Nat.mod_eq_of_lt hc,
    Nat.mod_eq_of_lt hc', Nat.zero_add] at hlane hcolumn
  exact ⟨hlane, hcolumn⟩

theorem Position.prevIndex_eq (f : Shape) (pos : Position) :
    pos.prevIndex f = pos.lane * f.q + pos.prevColumn f := by
  have hlength : 2 ≤ f.segmentLength := f.two_le
  have hq := f.q_eq_four
  rw [prevIndex, prevColumn]
  split <;> omega

theorem Position.Within.prevColumn_lt (h : pos.Within f) : pos.prevColumn f < f.q := by
  have hcolumn := h.column_lt
  rw [prevColumn]
  split <;> omega

theorem Position.prevColumn_ne (f : Shape) (pos : Position) : pos.prevColumn f ≠ pos.column f := by
  have hlength : 2 ≤ f.segmentLength := f.two_le
  have hq := f.q_eq_four
  rw [prevColumn]
  split <;> omega

theorem accesses_nodup (h : pos.Within f) (word : BitVec 64) : (accesses f pos word).Nodup := by
  have hallowed := refColumn_allowed h word
  have hprev : ∀ {lane c}, c < f.q → pos.prevIndex f = lane * f.q + c →
      lane = pos.lane ∧ c = pos.prevColumn f := by
    intro lane c hc heq
    obtain ⟨hlane, hcolumn⟩ := cell_inj h.prevColumn_lt hc (pos.prevIndex_eq f ▸ heq)
    exact ⟨hlane.symm, hcolumn.symm⟩
  simp only [accesses, List.nodup_cons, List.mem_cons, List.not_mem_nil, or_false, not_or,
    not_false_eq_true, List.nodup_nil, and_true]
  refine ⟨⟨fun heq => ?_, fun heq => ?_⟩, fun heq => ?_⟩
  · obtain ⟨hlane, hcolumn⟩ := hprev hallowed.lt heq
    exact (hallowed.same (beq_iff_eq.mpr hlane)).2 hcolumn
  · exact pos.prevColumn_ne f (hprev h.column_lt heq).2.symm
  · obtain ⟨hlane, hcolumn⟩ := cell_inj hallowed.lt h.column_lt heq
    exact (hallowed.same (beq_iff_eq.mpr hlane)).1 hcolumn

theorem curIndex_notMem_accesses {a b : Position} (ha : a.Within f) (hb : b.Within f)
    (hslice : a.slice = b.slice) (hlane : a.lane ≠ b.lane) (word : BitVec 64) :
    b.curIndex f ∉ accesses f a word := by
  have hallowed := refColumn_allowed ha word
  simp only [accesses, List.mem_cons, List.not_mem_nil, or_false, not_or]
  refine ⟨fun heq => ?_, fun heq => ?_, fun heq => ?_⟩
  · rw [a.prevIndex_eq] at heq
    exact hlane (cell_inj hb.column_lt ha.prevColumn_lt heq).1.symm
  · obtain ⟨href, hcolumn⟩ := cell_inj hb.column_lt hallowed.lt heq
    have hother : (refLane f a word == a.lane) = false := by
      rw [← href, beq_eq_false_iff_ne]
      exact hlane.symm
    have houtside := hallowed.other hother
    have hs := hb.s_lt
    rw [← hcolumn, Position.column, hslice, Nat.add_mul, Nat.one_mul] at houtside
    omega
  · exact hlane (cell_inj hb.column_lt ha.column_lt heq).1.symm

variable {backend}

theorem fillWith_eq_some {word : BitVec 64}
    (h : fillWith backend f memory pos word = some memory') :
    ∃ x, memory.write (pos.curIndex f) x = some memory' := by
  rw [fillWith] at h
  split at h
  · simp only [Option.bind_eq_bind, Option.bind_eq_some_iff] at h
    obtain ⟨-, -, -, -, x, -, hwrite⟩ := h
    exact ⟨x, hwrite⟩
  · cases h

theorem fillAt_eq_some (h : fillAt backend f memory pos = some memory') :
    ∃ x, memory.write (pos.curIndex f) x = some memory' := by
  obtain ⟨word, -, hfill⟩ := Option.bind_eq_some_iff.mp h
  exact fillWith_eq_some hfill

theorem fillAt_write {i : Nat} {x : Block} (h : ∀ word, i ∉ accesses f pos word)
    (hwrite : memory.write i x = some memory') :
    fillAt backend f memory' pos = (fillAt backend f memory pos).bind fun m => m.write i x := by
  simp only [accesses, List.mem_cons, List.not_mem_nil, or_false, not_or] at h
  have hword : wordAt f memory' pos = wordAt f memory pos := by
    rw [wordAt, wordAt, Memory.firstWord_write_of_ne hwrite (h 0).1]
  have hfill : ∀ word, fillWith backend f memory' pos word =
      (fillWith backend f memory pos word).bind fun m => m.write i x := by
    intro word
    obtain ⟨hprev, href, hcur⟩ := h word
    rw [fillWith, fillWith]
    split
    case isFalse => rfl
    simp only [Memory.get_write_of_ne hwrite hprev, Memory.get_write_of_ne hwrite href,
      Memory.get_write_of_ne hwrite hcur, Option.bind_eq_bind, Option.bind_assoc]
    congr 1
    funext prev
    congr 1
    funext reference
    congr 1
    funext block
    have hcomm := memory.write_comm hcur x block
    rwa [hwrite, Option.bind_some] at hcomm
  rw [fillAt, fillAt, hword, Option.bind_assoc]
  congr 1
  funext word
  exact hfill word

theorem fillAt_commutes {a b : Position} (ha : a.Within f) (hb : b.Within f)
    (hslice : a.slice = b.slice) (hlane : a.lane ≠ b.lane) :
    Commutes (fillAt backend f) a b := by
  intro memory
  have hnoa : ∀ word, b.curIndex f ∉ accesses f a word :=
      curIndex_notMem_accesses ha hb hslice hlane
  have hnob : ∀ word, a.curIndex f ∉ accesses f b word :=
    curIndex_notMem_accesses hb ha hslice.symm hlane.symm
  have hne : a.curIndex f ≠ b.curIndex f := by
    intro heq
    apply hnoa 0
    rw [← heq, accesses]
    exact List.mem_cons_of_mem _ (List.mem_cons_of_mem _ List.mem_cons_self)
  cases hleft : fillAt backend f memory a with
  | none =>
    cases hright : fillAt backend f memory b with
    | none => rfl
    | some tb =>
      obtain ⟨y, hy⟩ := fillAt_eq_some hright
      rw [Option.bind_none, Option.bind_some, fillAt_write hnoa hy, hleft, Option.bind_none]
  | some ta =>
    obtain ⟨x, hx⟩ := fillAt_eq_some hleft
    cases hright : fillAt backend f memory b with
    | none => rw [Option.bind_some, Option.bind_none, fillAt_write hnob hx, hright,
      Option.bind_none]
    | some tb =>
      obtain ⟨y, hy⟩ := fillAt_eq_some hright
      have hcomm := memory.write_comm hne x y
      rw [hx, hy, Option.bind_some, Option.bind_some] at hcomm
      rw [Option.bind_some, Option.bind_some, fillAt_write hnob hx, fillAt_write hnoa hy, hleft,
        hright, Option.bind_some, Option.bind_some, hcomm]

/-! ## What has been written -/

structure Filled (f : Shape) (upTo : Nat → Nat) (memory : Memory) : Prop where
  len_eq : memory.len = f.mPrime
  isSome : ∀ lane < f.p, ∀ c < upTo lane, (memory.get (lane * f.q + c)).isSome

variable {upTo upTo' : Nat → Nat}

theorem Filled.mono (h : Filled f upTo memory) (hle : ∀ lane < f.p, upTo' lane ≤ upTo lane) :
    Filled f upTo' memory :=
  ⟨h.len_eq, fun lane hlane c hc => h.isSome lane hlane c (lt_of_lt_of_le hc (hle lane hlane))⟩

theorem cell_lt {lane c : Nat} (hlane : lane < f.p) (hc : c < f.q) : lane * f.q + c < f.mPrime := by
  have hle : (lane + 1) * f.q ≤ f.p * f.q := Nat.mul_le_mul_right _ hlane
  rw [f.mPrime_eq]
  rw [Nat.add_mul, Nat.one_mul] at hle
  omega

theorem Position.Within.curIndex_lt (h : pos.Within f) : pos.curIndex f < f.mPrime :=
  cell_lt h.lane_lt h.column_lt

/-- What must have been written before a position is reached. -/
structure Ready (f : Shape) (pos : Position) (upTo : Nat → Nat) : Prop where
  own : pos.column f ≤ upTo pos.lane
  slice : ∀ lane < f.p, pos.slice * f.segmentLength ≤ upTo lane
  later : pos.pass ≠ 0 → ∀ lane < f.p, f.q ≤ upTo lane

theorem Ready.prev (h : pos.Within f) (hready : Ready f pos upTo) (hfilled : Filled f upTo memory) :
    (memory.get (pos.prevIndex f)).isSome := by
  rw [pos.prevIndex_eq]
  apply hfilled.isSome pos.lane h.lane_lt
  have hown := hready.own
  have hprev := h.prevColumn_lt
  by_cases hpass : pos.pass = 0
  · have hpos : 0 < pos.column f := by
      have hlength : 2 ≤ f.segmentLength := f.two_le
      rw [Position.column]
      by_cases hslice : pos.slice = 0
      · have htwo := h.two_le hpass hslice
        omega
      · have hle := Nat.mul_le_mul_right f.segmentLength (Nat.one_le_iff_ne_zero.mpr hslice)
        omega
    rw [Position.prevColumn, if_neg hpos.ne']
    omega
  · exact lt_of_lt_of_le hprev (hready.later hpass pos.lane h.lane_lt)

theorem Ready.reference (h : pos.Within f) (hready : Ready f pos upTo)
    (hfilled : Filled f upTo memory)
    (word : BitVec 64) : (memory.get (refIndex f pos word)).isSome := by
  have hallowed := refColumn_allowed h word
  have hlane := refLane_lt h word
  apply hfilled.isSome _ hlane
  by_cases hpass : pos.pass = 0
  · have hfirst := hallowed.first hpass
    split at hfirst
    · next hsame =>
      rw [beq_iff_eq.mp hsame]
      exact lt_of_lt_of_le hfirst hready.own
    · exact lt_of_lt_of_le hfirst (hready.slice _ hlane)
  · exact lt_of_lt_of_le hallowed.lt (hready.later hpass _ hlane)

variable (backend)

theorem fillAt_filled (h : pos.Within f) (hready : Ready f pos upTo)
    (hfilled : Filled f upTo memory) :
    ∃ memory', fillAt backend f memory pos = some memory' ∧
      Filled f (Function.update upTo pos.lane (max (upTo pos.lane) (pos.column f + 1)))
      memory' := by
  obtain ⟨prev, hprev⟩ := Option.isSome_iff_exists.mp (hready.prev h hfilled)
  obtain ⟨word, hword⟩ : ∃ word, wordAt f memory pos = some word := by
    rw [wordAt]
    split
    · exact ⟨_, rfl⟩
    · rw [Memory.firstWord, hprev]
      exact ⟨_, rfl⟩
  obtain ⟨reference, href⟩ := Option.isSome_iff_exists.mp (hready.reference h hfilled word)
  have hcur : (pos.pass != 0) = true → (memory.get (pos.curIndex f)).isSome := by
    intro hpass
    exact hfilled.isSome pos.lane h.lane_lt _
      (lt_of_lt_of_le h.column_lt (hready.later (bne_iff_ne.mp hpass) pos.lane h.lane_lt))
  obtain ⟨block, hblock⟩ := Option.isSome_iff_exists.mp (backend.isSome prev reference _ _ hcur)
  obtain ⟨memory', hwrite⟩ := memory.write_isSome (hfilled.len_eq ▸ h.curIndex_lt) block
  refine ⟨memory', ?_, (Memory.len_write hwrite).trans hfilled.len_eq, ?_⟩
  · rw [fillAt, hword, Option.bind_some, fillWith, if_pos (accesses_nodup h word), hprev]
    simp only [Option.bind_eq_bind, Option.bind_some, href, hblock, hwrite]
  · intro lane hlane c hc
    by_cases hindex : pos.curIndex f = lane * f.q + c
    · rw [← hindex, Memory.get_write_self hwrite]
      rfl
    · rw [Memory.get_write_of_ne hwrite hindex]
      apply hfilled.isSome lane hlane
      by_cases hsame : lane = pos.lane
      · subst hsame
        rw [Function.update_self] at hc
        have hown := hready.own
        have hne : c ≠ pos.column f := fun heq => hindex (by rw [heq, Position.curIndex])
        omega
      · rwa [Function.update_of_ne hsame] at hc

def written (f : Shape) (pass slice : Nat) : Nat :=
  if pass = 0 then max 2 (slice * f.segmentLength) else f.q

theorem slice_le_written (f : Shape) (pass : Nat) (hslice : slice ≤ SYNC_POINTS) :
    slice * f.segmentLength ≤ written f pass slice := by
  have hle := Nat.mul_le_mul_right f.segmentLength hslice
  rw [written, f.q_eq_four]
  split
  · exact le_max_right _ _
  · exact hle

theorem written_succ_le (f : Shape) (pass slice : Nat) :
    written f pass (slice + 1) ≤ max (written f pass slice) ((slice + 1) * f.segmentLength) := by
  simp only [written]
  split
  · rw [max_assoc, ← Nat.succ_eq_add_one]
    omega
  · exact le_max_left _ _

theorem written_le_succ (f : Shape) (pass slice : Nat) :
    written f pass slice ≤ written f pass (slice + 1) := by
  have hle : slice * f.segmentLength ≤ (slice + 1) * f.segmentLength :=
    Nat.mul_le_mul_right _ (Nat.le_succ slice)
  simp only [written]
  split
  · exact max_le_max_left 2 hle
  · exact le_refl _

theorem Ready.of_written {s : Nat} (hslice : slice < SYNC_POINTS)
    (hbelow : ∀ l < f.p, written f pass slice ≤ upTo l)
    (hown : slice * f.segmentLength + s ≤ upTo lane) : Ready f ⟨pass, lane, slice, s⟩ upTo where
  own := hown
  slice l hl := le_trans (slice_le_written f pass hslice.le) (hbelow l hl)
  later hpass l hl := by
    have hall := hbelow l hl
    rwa [written, if_neg hpass] at hall

theorem le_update_max (upTo : Nat → Nat) (lane bound l : Nat) :
    upTo l ≤ Function.update upTo lane (max (upTo lane) bound) l := by
  by_cases hl : l = lane
  · subst hl
    rw [Function.update_self]
    exact le_max_left _ _
  · rw [Function.update_of_ne hl]

theorem range'_filled {s n : Nat} (hlane : lane < f.p) (hslice : slice < SYNC_POINTS)
    (htwo : pass = 0 → slice = 0 → 2 ≤ s) (hle : s + n ≤ f.segmentLength)
    (hbelow : ∀ l < f.p, written f pass slice ≤ upTo l)
    (hown : slice * f.segmentLength + s ≤ upTo lane) (hfilled : Filled f upTo memory) :
    ∃ memory', exec (fillAt backend f) memory
        ((List.range' s n).map fun s => ⟨pass, lane, slice, s⟩) = some memory' ∧
      Filled f (Function.update upTo lane (max (upTo lane) (slice * f.segmentLength + (s + n))))
        memory' := by
  induction n generalizing s memory upTo with
  | zero => exact ⟨memory, rfl, by rwa [Nat.add_zero, max_eq_left hown, Function.update_eq_self]⟩
  | succ n ih =>
    have hwithin : Position.Within f ⟨pass, lane, slice, s⟩ :=
      ⟨hlane, hslice, by dsimp only; omega, htwo⟩
    obtain ⟨next, hnext, hwritten⟩ := fillAt_filled backend hwithin
      (Ready.of_written hslice hbelow hown) hfilled
    simp only [Position.column] at hwritten
    obtain ⟨last, hlast, hdone⟩ := ih (fun hpass hfirst => Nat.le_succ_of_le (htwo hpass hfirst))
      (by omega) (fun l hl => le_trans (hbelow l hl) (le_update_max upTo lane _ l))
      (by rw [Function.update_self]; exact le_max_right _ _) hwritten
    refine ⟨last, ?_, ?_⟩
    · rw [List.range'_succ, List.map_cons, exec, hnext, Option.bind_some, hlast]
    · refine hdone.mono fun l _ => ?_
      by_cases hl : l = lane
      · subst hl
        simp only [Function.update_self]
        omega
      · simp only [Function.update_of_ne hl, le_refl]

theorem segment_filled (hlane : lane < f.p) (hslice : slice < SYNC_POINTS)
    (hbelow : ∀ l < f.p, written f pass slice ≤ upTo l) (hfilled : Filled f upTo memory) :
    ∃ memory', exec (fillAt backend f) memory (segment f lane pass slice) = some memory' ∧
      Filled f (Function.update upTo lane (max (upTo lane) (written f pass (slice + 1))))
      memory' := by
  have hlength : 2 ≤ f.segmentLength := f.two_le
  have hbase := le_trans (slice_le_written f pass hslice.le) (hbelow lane hlane)
  have hown : slice * f.segmentLength + (if pass = 0 ∧ slice = 0 then 2 else 0) ≤ upTo lane := by
    split
    · next h =>
      have hall := hbelow lane hlane
      rw [written, if_pos h.1] at hall
      rw [h.2, Nat.zero_mul]
      omega
    · omega
  obtain ⟨memory', hrun, hfilled'⟩ := range'_filled backend
    (n := f.segmentLength - if pass = 0 ∧ slice = 0 then 2 else 0) hlane hslice
    (fun h0 h1 => by rw [if_pos ⟨h0, h1⟩]) (by split <;> omega) hbelow hown hfilled
  refine ⟨memory', hrun, hfilled'.mono fun l _ => ?_⟩
  by_cases hl : l = lane
  · subst hl
    have hnext := written_succ_le f pass slice
    have hall := hbelow l hlane
    rw [Nat.add_mul, Nat.one_mul] at hnext
    simp only [Function.update_self]
    split <;> omega
  · simp only [Function.update_of_ne hl, le_refl]

theorem slice_filled (hslice : slice < SYNC_POINTS)
    (hfilled : Filled f (fun _ => written f pass slice) memory) :
    ∃ memory', exec (fillAt backend f) memory
        ((List.range f.p).flatMap fun lane => segment f lane pass slice) = some memory' ∧
      Filled f (fun _ => written f pass (slice + 1)) memory' := by
  have hle := written_le_succ f pass slice
  have hstep : ∀ k t, k < f.p →
      Filled f (fun l => if l < k then written f pass (slice + 1) else written f pass slice) t →
      ∃ t', exec (fillAt backend f) t (segment f k pass slice) = some t' ∧
        Filled f (fun l => if l < k + 1 then written f pass (slice + 1)
          else written f pass slice) t' := by
    intro k t hk ht
    obtain ⟨next, hnext, hwritten⟩ := segment_filled backend hk hslice
      (fun l _ => by split <;> omega) ht
    refine ⟨next, hnext, hwritten.mono fun l _ => ?_⟩
    by_cases hl : l = k
    · subst hl
      rw [Function.update_self, if_pos (Nat.lt_succ_self l)]
      exact le_max_right _ _
    · rw [Function.update_of_ne hl]
      split <;> split <;> omega
  obtain ⟨memory', hrun, hall⟩ := exec_range _
    (P := fun k => Filled f fun l =>
      if l < k then written f pass (slice + 1) else written f pass slice)
    (hfilled.mono fun l _ => by rw [if_neg (Nat.not_lt_zero l)]) hstep
  rw [exec_flatMap] at hrun
  exact ⟨memory', hrun, hall.mono fun l hl => by rw [if_pos hl]⟩

theorem pass_filled (hfilled : Filled f (fun _ => written f pass 0) memory) :
    ∃ memory', exec (fun memory slice => exec (fillAt backend f) memory
        ((List.range f.p).flatMap fun lane => segment f lane pass slice)) memory
        (List.range SYNC_POINTS) = some memory' ∧ Filled f (fun _ => f.q) memory' := by
  obtain ⟨memory', hrun, hall⟩ := exec_range (n := SYNC_POINTS) (s := memory) _
    (P := fun slice => Filled f fun _ => written f pass slice) hfilled
    (fun slice t hslice ht => slice_filled backend hslice ht)
  refine ⟨memory', hrun, hall.mono fun _ _ => ?_⟩
  rw [written]
  split
  · exact f.q_eq.le.trans (le_max_right _ _)
  · exact le_refl _

/-- With the first two columns of every lane written, the plain loop never reads a block
that has not been written nor leaves the arena, and it writes every block. -/
theorem positions_filled (hfilled : Filled f (fun _ => 2) memory) :
    ∃ memory', exec (fillAt backend f) memory (positions f) = some memory' ∧
      Filled f (fun _ => f.q) memory' := by
  have hwritten : ∀ pass, written f pass 0 = if pass = 0 then 2 else f.q := by
    intro pass
    rw [written, Nat.zero_mul]
    rfl
  obtain ⟨memory', hrun, hall⟩ := exec_range (n := f.t) (s := memory) _
    (P := fun pass => Filled f fun _ => if pass = 0 then 2 else f.q) hfilled
    (fun pass t _ ht => by
      obtain ⟨t', hpass, hdone⟩ := pass_filled backend (hwritten pass ▸ ht)
      exact ⟨t', hpass, by rwa [if_neg (Nat.succ_ne_zero pass)]⟩)
  refine ⟨memory', ?_, by rwa [if_neg f.t_pos.ne'] at hall⟩
  simp only [exec_flatMap] at hrun
  simpa only [positions, phases, List.flatMap_assoc, List.flatMap_map] using hrun

/-! ## The reference block -/

/-- An earlier pass, an earlier slice of the pass, or earlier in the segment of the lane. -/
def Position.Precedes (a b : Position) : Prop :=
  a.pass < b.pass ∨ a.pass = b.pass ∧
    (a.slice < b.slice ∨ a.slice = b.slice ∧ a.lane = b.lane ∧ a.s < b.s)

/-- The block that the words `J1` and `J2` of `word` choose. -/
structure SafeReference (f : Shape) (pos : Position) (word : BitVec 64) : Prop where
  inside : refIndex f pos word < f.mPrime
  ne_cur : refIndex f pos word ≠ pos.curIndex f
  ne_prev : refIndex f pos word ≠ pos.prevIndex f
  outside : refLane f pos word ≠ pos.lane → refColumn f pos word < pos.slice * f.segmentLength ∨
    (pos.slice + 1) * f.segmentLength ≤ refColumn f pos word
  written : refColumn f pos word < 2 ∨ ∃ earlier : Position, earlier.Within f ∧
    earlier.Precedes pos ∧ earlier.curIndex f = refIndex f pos word

theorem column_div_mod {lane c : Nat} (hlane : lane < f.p) (hc : c < f.q) (htwo : 2 ≤ c)
    (pass : Nat) :
    Position.Within f ⟨pass, lane, c / f.segmentLength, c % f.segmentLength⟩ ∧
      Position.curIndex f ⟨pass, lane, c / f.segmentLength, c % f.segmentLength⟩ =
        lane * f.q + c := by
  have hlength : 2 ≤ f.segmentLength := f.two_le
  refine ⟨⟨hlane, ?_, Nat.mod_lt _ (by omega), fun _ hslice => ?_⟩, ?_⟩
  · rw [f.q_eq_four] at hc
    exact Nat.div_lt_of_lt_mul (by rwa [Nat.mul_comm])
  · have hlt := (Nat.div_eq_zero_iff_lt (by omega)).mp hslice
    rwa [Nat.mod_eq_of_lt hlt]
  · rw [Position.curIndex, Position.column, Nat.div_add_mod']

theorem safeReference (h : pos.Within f) (word : BitVec 64) : SafeReference f pos word := by
  have hallowed := refColumn_allowed h word
  have hlane := refLane_lt h word
  obtain ⟨hprev, hcur, -⟩ : _ ∧ _ ∧ _ := by
    simpa only [accesses, List.nodup_cons, List.mem_cons, List.not_mem_nil, or_false, not_or]
      using accesses_nodup h word
  refine ⟨cell_lt hlane hallowed.lt, hcur, fun heq => hprev.1 heq.symm,
    fun hne => hallowed.other (beq_eq_false_iff_ne.mpr hne), or_iff_not_imp_left.mpr fun hc => ?_⟩
  have hcell := column_div_mod hlane hallowed.lt (not_lt.mp hc)
  by_cases hpass : pos.pass = 0
  · refine ⟨_, (hcell 0).1, .inr ⟨hpass.symm, ?_⟩, (hcell 0).2⟩
    have hfirst := hallowed.first hpass
    split at hfirst
    · next hsame =>
      rcases lt_or_ge (refColumn f pos word / f.segmentLength) pos.slice with hlt | hge
      · exact .inl hlt
      have hdiv := Nat.div_add_mod' (refColumn f pos word) f.segmentLength
      have hle := Nat.mul_le_mul_right f.segmentLength hge
      have hs := h.s_lt
      rw [Position.column] at hfirst
      have heq : refColumn f pos word / f.segmentLength = pos.slice :=
        le_antisymm (Nat.le_of_lt_succ (Nat.div_lt_of_lt_mul (by
          rw [Nat.mul_comm, Nat.succ_mul]
          omega))) hge
      rw [heq] at hdiv
      exact .inr ⟨heq, beq_iff_eq.mp hsame, by dsimp only; omega⟩
    · exact .inl (Nat.div_lt_of_lt_mul (by rwa [Nat.mul_comm] at hfirst))
  · exact ⟨_, (hcell (pos.pass - 1)).1, .inl (by dsimp only; omega), (hcell _).2⟩

/-! ## The threads -/

def threads (f : Shape) (memory : Memory) : Team Memory Position f.p :=
  ⟨memory, fun lane => (phases f).map fun phase => segment f lane phase.1 phase.2⟩

/-- The round `b` writes no block that the round `a` reads or writes. -/
def Unshared (f : Shape) (a b : Position) : Prop := ∀ word, b.curIndex f ∉ accesses f a word

theorem slice_lt_of_mem_phases {phase : Nat × Nat} (h : phase ∈ phases f) :
    phase.2 < SYNC_POINTS := by
  simp only [phases, List.mem_flatMap, List.mem_map, List.mem_range] at h
  obtain ⟨-, -, slice, hslice, rfl⟩ := h
  exact hslice

theorem threads_across {R : Position → Position → Prop}
    (hR : ∀ a b : Position, a.Within f → b.Within f → a.slice = b.slice → a.lane ≠ b.lane → R a b) :
    Across R (threads f memory).rounds := by
  refine across_map fun phase hphase i j hij a ha b hb => ?_
  have hslice := slice_lt_of_mem_phases hphase
  have hwithina := segment_within i.isLt hslice ha
  have hwithinb := segment_within j.isLt hslice hb
  obtain ⟨_, rfl, -⟩ := mem_segment.mp ha
  obtain ⟨_, rfl, -⟩ := mem_segment.mp hb
  exact hR _ _ hwithina hwithinb rfl fun heq => hij (Fin.ext heq)

theorem inOrder_threads (f : Shape) (memory : Memory) :
    inOrder (phases f).length (threads f memory).rounds = positions f := by
  rw [threads, positions]
  refine (inOrder_map _ _).trans (List.flatMap_congr fun phase _ => ?_)
  rw [← List.map_coe_finRange_eq_range, List.flatMap_map]

theorem threads_onCourse (hfilled : Filled f (fun _ => 2) memory) :
    ∃ full, fillMemory backend f memory = some full ∧
      (threads f memory).OnCourse (fillAt backend f) (Unshared f) (some full)
        (phases f).length := by
  obtain ⟨full, hrun, -⟩ := positions_filled backend hfilled
  refine ⟨full, (fillMemory_eq backend f memory).trans hrun, ?_⟩
  exact {
    length_eq := fun i => List.length_map ..
    commutes := threads_across fun a b ha hb => fillAt_commutes ha hb
    across := threads_across fun a b ha hb hslice hlane =>
      curIndex_notMem_accesses ha hb hslice hlane
    exec_eq := by rw [inOrder_threads]; exact hrun }

/-! ## A derivation -/

structure Params where
  iterations : BitVec 32
  memory : BitVec 32
  parallelism : BitVec 32

def Params.validate (self : Params) (outLen : Nat) : Except String Unit :=
  if self.iterations.toNat < 1 then .error "iterations must be >= 1"
  else if self.parallelism.toNat < 1 then .error "parallelism must be >= 1"
  else if self.parallelism.toNat > 2 ^ 24 - 1 then .error "parallelism must be <= 2^24 - 1"
  else if outLen < 4 then .error "output length must be >= 4"
  else if outLen ≥ 2 ^ 32 then .error "output length must be <= 2^32 - 1"
  else if self.memory.toNat < 8 * self.parallelism.toNat then
    .error "memory must be >= 8*parallelism"
  else .ok ()

def Params.mPrime (self : Params) : Nat :=
  4 * self.parallelism.toNat * (self.memory.toNat / (4 * self.parallelism.toNat))

variable {params : Params} {outLen : Nat}

theorem Params.validate_ok (h : params.validate outLen = .ok ()) :
    0 < params.iterations.toNat ∧ 0 < params.parallelism.toNat ∧
      8 * params.parallelism.toNat ≤ params.memory.toNat := by
  simp only [validate] at h
  repeat' split at h
  all_goals first
    | omega
    | cases h

def Params.columns (self : Params) : Nat := self.mPrime / self.parallelism.toNat

theorem Params.columns_ok (h : params.validate outLen = .ok ()) :
    params.columns = SYNC_POINTS * (params.columns / SYNC_POINTS) ∧
      2 ≤ params.columns / SYNC_POINTS ∧
      params.mPrime = params.parallelism.toNat * params.columns := by
  obtain ⟨-, hp, hm⟩ := validate_ok h
  have hcolumns : params.columns = 4 * (params.memory.toNat / (4 * params.parallelism.toNat)) := by
    rw [columns, mPrime, Nat.mul_comm 4, Nat.mul_assoc, Nat.mul_div_cancel_left _ hp]
  rw [hcolumns, SYNC_POINTS, Nat.mul_div_cancel_left _ (by omega)]
  refine ⟨rfl, (Nat.le_div_iff_mul_le (by omega)).mpr (by omega), ?_⟩
  rw [mPrime, ← Nat.mul_assoc, Nat.mul_comm 4]

def Params.shape (self : Params) (h : self.validate outLen = .ok ()) (argonType : Nat) : Shape where
  argonType := argonType
  p := self.parallelism.toNat
  q := self.columns
  t := self.iterations.toNat
  mPrime := self.mPrime
  p_pos := (validate_ok h).2.1
  t_pos := (validate_ok h).1
  q_eq := (columns_ok h).1
  two_le := (columns_ok h).2.1
  mPrime_eq := (columns_ok h).2.2
  mPrime_lt := lt_of_le_of_lt (Nat.mul_div_le _ _) self.memory.isLt

def firstColumns (first : Nat → Nat → Block) (f : Shape) (memory : Memory) (i : Nat) :
    Option Memory := do
  let memory ← memory.write (i * f.q) (first i 0)
  memory.write (i * f.q + 1) (first i 1)

def firstBlocks (first : Nat → Nat → Block) (f : Shape) (memory : Memory) : Option Memory :=
  exec (firstColumns first f) memory (List.range f.p)

theorem firstBlocks_filled (first : Nat → Nat → Block) (f : Shape) :
    ∃ memory, firstBlocks first f (Memory.uninit f.mPrime) = some memory ∧
      Filled f (fun _ => 2) memory := by
  have hlength : 2 ≤ f.segmentLength := f.two_le
  have hq := f.q_eq_four
  obtain ⟨memory, hrun, hfilled⟩ := exec_range (firstColumns first f) (n := f.p)
    (s := Memory.uninit f.mPrime) (P := fun k => Filled f fun l => if l < k then 2 else 0)
    ⟨List.length_replicate, fun l _ c hc => by simp at hc⟩ (by
      intro k t hk ht
      have hle : (k + 1) * f.q ≤ f.p * f.q := Nat.mul_le_mul_right _ hk
      rw [Nat.add_mul, Nat.one_mul, ← f.mPrime_eq, ← ht.len_eq] at hle
      obtain ⟨m, hm⟩ := t.write_isSome (i := k * f.q) (by omega) (first k 0)
      obtain ⟨m', hm'⟩ := m.write_isSome (i := k * f.q + 1)
        (by rw [Memory.len_write hm]; omega) (first k 1)
      refine ⟨m', by simp [firstColumns, hm, hm'], ?_, fun l hl c hc => ?_⟩
      · rw [Memory.len_write hm', Memory.len_write hm, ht.len_eq]
      · by_cases hone : k * f.q + 1 = l * f.q + c
        · rw [← hone, Memory.get_write_self hm']
          rfl
        · rw [Memory.get_write_of_ne hm' hone]
          by_cases hzero : k * f.q = l * f.q + c
          · rw [← hzero, Memory.get_write_self hm]
            rfl
          · rw [Memory.get_write_of_ne hm hzero]
            apply ht.isSome l hl
            have hne : l ≠ k := by
              rintro rfl
              split at hc <;> omega
            split at hc <;> split <;> omega)
  exact ⟨memory, hrun, hfilled.mono fun l hl => by rw [if_pos hl]⟩

/-- The arena is filled, and by the threads as by the plain loop, in whatever turns. -/
def Fills (backend : Backend) (first : Nat → Nat → Block) (f : Shape) : Prop :=
  ∃ start full, firstBlocks first f (.uninit f.mPrime) = some start ∧
    fillMemory backend f start = some full ∧
    ∀ turns team, exec (Team.turn (fillAt backend f)) (threads f start) turns = some team →
      (∀ i pos, team.Pending i pos → (fillAt backend f team.state pos).isSome) ∧
      (∀ i j a b, i ≠ j → team.Pending i a → team.Pending j b → Unshared f a b) ∧
      (∃ rest last, exec (Team.turn (fillAt backend f)) team rest = some last ∧ last.Finished) ∧
      (team.Finished → team.state = full)

theorem fills (first : Nat → Nat → Block) (f : Shape) : Fills backend first f := by
  have hne : NeZero f.p := ⟨f.p_pos.ne'⟩
  obtain ⟨start, hstart, hfilled⟩ := firstBlocks_filled first f
  obtain ⟨full, hfull, hcourse⟩ := threads_onCourse backend hfilled
  refine ⟨start, full, hstart, hfull, fun turns team hrun => ?_⟩
  obtain ⟨n, hteam⟩ := hcourse.run hrun
  refine ⟨fun i pos hpending => hteam.pending_isSome rfl hpending,
    fun i j a b hij ha hb => hteam.pending_across hij ha hb, hteam.completes rfl,
    fun hfinished => ?_⟩
  exact (Option.some.inj (hteam.finished hfinished)).symm

/-- No turn of any thread fails or meets a block that another thread is writing, the threads
can always go on until all have returned, and the arena is then the one of the plain loop. -/
theorem threads_agree (first : Nat → Nat → Block) (f : Shape) :
    ∃ start full, firstBlocks first f (.uninit f.mPrime) = some start ∧
      fillMemory backend f start = some full ∧
      ∀ turns team, exec (Team.turn (fillAt backend f)) (threads f start) turns = some team →
        (∀ i pos, team.Pending i pos → (fillAt backend f team.state pos).isSome) ∧
        (∀ i j a b, i ≠ j → team.Pending i a → team.Pending j b → Unshared f a b) ∧
        (∃ rest last, exec (Team.turn (fillAt backend f)) team rest = some last ∧ last.Finished) ∧
        (team.Finished → team.state = full) :=
  fills backend first f

theorem Params.fills (h : params.validate outLen = .ok ()) (argonType : Nat)
    (first : Nat → Nat → Block) : Fills backend first (params.shape h argonType) :=
  Argon2.fills backend first _

/-- Whatever `J1` and `J2` are, the block that they choose can be read, and the lanes may take
their turns in any order. -/
theorem Params.lanes_independent (h : params.validate outLen = .ok ()) (argonType : Nat)
    (first : Nat → Nat → Block) :
    (∀ pos, pos.Within (params.shape h argonType) → ∀ word,
      SafeReference (params.shape h argonType) pos word) ∧
    Fills backend first (params.shape h argonType) :=
  ⟨fun _ hpos word => safeReference hpos word, params.fills backend h argonType first⟩

theorem Params.lanes_independent_four :
    ∃ h : (⟨1, 32, 4⟩ : Params).validate 32 = .ok (),
      SafeReference (Params.shape ⟨1, 32, 4⟩ h 2) ⟨0, 3, 1, 0⟩ 5 :=
  ⟨rfl, (Params.lanes_independent .scalar (show (⟨1, 32, 4⟩ : Params).validate 32 = .ok () from rfl)
    2 fun _ _ => .zero).1 ⟨0, 3, 1, 0⟩ ⟨by decide, by decide, by decide, by decide⟩ 5⟩

end Stdx.Argon2
