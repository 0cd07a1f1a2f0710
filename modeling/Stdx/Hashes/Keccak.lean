import Stdx.Foundation.BlockFold
import Stdx.Foundation.Chunks

/-!
# The Keccak sponge

`crypto/src/sha3/keccak.rs`.  Absorbing permutes as soon as the rate is full, squeezing
only when more octets are asked for.  The permutation is a parameter.
-/

namespace Stdx.Hashes

open Stdx.Foundation

inductive SpongeMode
  | absorbing
  | squeezing
  deriving DecidableEq

abbrev State := FixedBytes 200

structure KeccakSponge where
  state : State
  rate : Nat
  padding : UInt8
  pos : Nat
  mode : SpongeMode

/-- `xor(&mut state[start..start + data.len()], data)` of a range in the array. -/
def xorAt (state : State) (start : Nat) (data : Bytes) (h : start + data.length ≤ 200) : State :=
  ⟨state.octets.take start ++
      List.zipWith (· ^^^ ·) ((state.octets.drop start).take data.length) data ++
      state.octets.drop (start + data.length), by
    have := state.length_eq
    simp
    omega⟩

/-- `data.chunks(m)`; a size of zero panics in the source and is never passed. -/
def chunks (m : Nat) (data : Bytes) : List Bytes :=
  if data = [] ∨ m = 0 then [] else data.take m :: chunks m (data.drop m)
termination_by data.length
decreasing_by
  rename_i h
  have hpos := List.length_pos_iff.mpr fun hnil => h (Or.inl hnil)
  rw [List.length_drop]
  omega

/-- The lengths of the pieces of `out.chunks_mut(m)`, for `count` octets. -/
def chunkLengths (m count : Nat) : List Nat :=
  if count = 0 ∨ m = 0 then [] else min m count :: chunkLengths m (count - m)
termination_by count
decreasing_by omega

namespace KeccakSponge

variable (permute : State → State)

def new (rate : Nat) (delimiter : UInt8) : KeccakSponge :=
  ⟨.zeroed 200, rate, delimiter, 0, .absorbing⟩

def permuteAndResetPos (s : KeccakSponge) : KeccakSponge :=
  { s with state := permute s.state, pos := 0 }

/-- `none` when the range leaves the state. -/
def absorbChunk (s : KeccakSponge) (chunk : Bytes) : Option KeccakSponge :=
  if h : s.pos + chunk.length ≤ 200 then
    let s := { s with state := xorAt s.state s.pos chunk h, pos := s.pos + chunk.length }
    some (if s.pos = s.rate then permuteAndResetPos permute s else s)
  else none

def absorbChunks (s : KeccakSponge) : List Bytes → Option KeccakSponge
  | [] => some s
  | chunk :: rest => do absorbChunks (← absorbChunk permute s chunk) rest

/-- `none` when the mode assertion fails. -/
def absorb (s : KeccakSponge) (data : Bytes) : Option KeccakSponge :=
  if s.mode = .absorbing then do
    let rateRemainder := min (s.rate - s.pos) data.length
    let s ← absorbChunk permute s (data.take rateRemainder)
    absorbChunks permute s (chunks s.rate (data.drop rateRemainder))
  else none

/-- `state[at] ^= octet` -/
def xorOctet (s : KeccakSponge) (index : Nat) (octet : UInt8) : Option KeccakSponge :=
  if h : index + [octet].length ≤ 200 then
    some { s with state := xorAt s.state index [octet] h }
  else none

def padAndPermute (s : KeccakSponge) : Option KeccakSponge := do
  let s ← xorOctet s s.pos s.padding
  let s ← xorOctet s (s.rate - 1) 0x80
  some (permuteAndResetPos permute s)

def squeezeChunk (s : KeccakSponge) (count : Nat) : Option (Bytes × KeccakSponge) :=
  let s := if s.pos = s.rate then permuteAndResetPos permute s else s
  if s.pos + count ≤ 200 then
    some ((s.state.octets.drop s.pos).take count, { s with pos := s.pos + count })
  else none

def squeezeChunks (s : KeccakSponge) : List Nat → Option (Bytes × KeccakSponge)
  | [] => some ([], s)
  | count :: rest => do
      let (front, s) ← squeezeChunk permute s count
      let (back, s) ← squeezeChunks s rest
      some (front ++ back, s)

def startSqueezing (s : KeccakSponge) : Option KeccakSponge :=
  if s.mode = .absorbing
    then (padAndPermute permute s).map fun s => { s with mode := .squeezing }
    else some s

def squeeze (s : KeccakSponge) (count : Nat) : Option (Bytes × KeccakSponge) := do
  let s ← startSqueezing permute s
  let rateRemainder := min (s.rate - s.pos) count
  let (front, s) ← squeezeChunk permute s rateRemainder
  let (back, s) ← squeezeChunks permute s (chunkLengths s.rate (count - rateRemainder))
  some (front ++ back, s)

def absorbs (s : KeccakSponge) : List Bytes → Option KeccakSponge
  | [] => some s
  | data :: rest => do absorbs (← absorb permute s data) rest

def squeezes (s : KeccakSponge) : List Nat → Option (List Bytes × KeccakSponge)
  | [] => some ([], s)
  | count :: rest => do
      let (out, s) ← squeeze permute s count
      let (outs, s) ← squeezes s rest
      some (out :: outs, s)

end KeccakSponge

/-! ## FIPS 202 -/

/-- The domain bits and `pad10*1` behind a message that leaves `q` octets of its last
block; in the last octet they share the octet. -/
def domainPad (delimiter : UInt8) (q : Nat) : Bytes :=
  if q = 1 then [delimiter ^^^ 0x80] else delimiter :: List.replicate (q - 2) 0 ++ [0x80]

def padded (r : Nat) (delimiter : UInt8) (message : Bytes) : Bytes :=
  message ++ domainPad delimiter (r - message.length % r)

def xorBlock (state : State) (block : Bytes) : State :=
  if h : 0 + block.length ≤ 200 then xorAt state 0 block h else state

def absorbed (permute : State → State) (r : Nat) (message : Bytes) : State :=
  foldBlocks r (fun _ state block => permute (xorBlock state block)) (message.length / r)
    (.zeroed 200) message

def squeezed (permute : State → State) (r : Nat) (state : State) (count : Nat) : Bytes :=
  ((List.range (count / r + 1)).flatMap fun i => (permute^[i] state).octets.take r).take count

/-- `SPONGE[f, pad10*1, r]` -/
def sponge (permute : State → State) (r : Nat) (delimiter : UInt8) (message : Bytes)
    (count : Nat) : Bytes :=
  squeezed permute r (absorbed permute r (padded r delimiter message)) count

/-! ## Adding to the state -/

theorem xorAt_octets {state : State} {start : Nat} (data : Bytes) {a b c : Bytes}
    (h : start + data.length ≤ 200) (hstate : state.octets = a ++ b ++ c)
    (ha : a.length = start) (hb : b.length = data.length) :
    (xorAt state start data h).octets = a ++ List.zipWith (· ^^^ ·) b data ++ c := by
  have hdrop : state.octets.drop (start + data.length) = c := by
    rw [hstate, ← ha, ← hb, ← List.length_append, List.drop_left]
  have hmiddle : (state.octets.drop start).take data.length = b := by
    rw [hstate, List.append_assoc, ← ha, List.drop_left, ← hb, List.take_left]
  have htake : state.octets.take start = a := by
    rw [hstate, List.append_assoc, ← ha, List.take_left]
  show state.octets.take start ++
    List.zipWith (· ^^^ ·) ((state.octets.drop start).take data.length) data ++
    state.octets.drop (start + data.length) = _
  rw [hdrop, hmiddle, htake]

theorem state_split (state : State) {i j : Nat} (h : i + j ≤ 200) :
    ∃ a b c, state.octets = a ++ b ++ c ∧ a.length = i ∧ b.length = j := by
  have hlength := state.length_eq
  refine ⟨state.octets.take i, (state.octets.drop i).take j, state.octets.drop (i + j), ?_,
    ?_, ?_⟩
  · rw [← List.drop_drop, List.append_assoc, List.take_append_drop, List.take_append_drop]
  · rw [List.length_take]
    omega
  · rw [List.length_take, List.length_drop]
    omega

theorem xorBlock_octets {state : State} {data b c : Bytes} (h : data.length ≤ 200)
    (hstate : state.octets = b ++ c) (hb : b.length = data.length) :
    (xorBlock state data).octets = List.zipWith (· ^^^ ·) b data ++ c := by
  rw [xorBlock, dif_pos (by omega)]
  exact xorAt_octets data (a := []) _ hstate rfl hb

theorem xorBlock_nil (state : State) : xorBlock state [] = state :=
  FixedBytes.ext (@xorBlock_octets state [] [] _ (Nat.zero_le 200) (List.nil_append _).symm rfl)

theorem xorAt_xorBlock (state : State) {front back : Bytes}
    (h : front.length + back.length ≤ 200) :
    xorAt (xorBlock state front) front.length back h = xorBlock state (front ++ back) := by
  obtain ⟨a, b, c, hstate, ha, hb⟩ := state_split state h
  have hfront : (xorBlock state front).octets =
      List.zipWith (· ^^^ ·) a front ++ b ++ c := by
    rw [xorBlock_octets (b := a) (c := b ++ c) (by omega)
      (by rw [hstate, List.append_assoc]) ha, List.append_assoc]
  refine FixedBytes.ext ?_
  rw [xorAt_octets back h hfront (by rw [List.length_zipWith, ha, Nat.min_self]) hb,
    xorBlock_octets (by rw [List.length_append]; exact h) hstate
      (by rw [List.length_append, List.length_append, ha, hb]),
    List.zipWith_append ha]

theorem xorBlock_zeros (state : State) {front : Bytes} {count : Nat}
    (h : front.length + count ≤ 200) :
    xorBlock state (front ++ List.replicate count 0) = xorBlock state front := by
  obtain ⟨a, b, c, hstate, ha, hb⟩ := state_split state h
  refine FixedBytes.ext ?_
  have hzeros : List.zipWith (· ^^^ ·) b (List.replicate count (0 : UInt8)) = b := by
    rw [← hb]
    clear hb hstate
    induction b with
    | nil => rfl
    | cons x b ih => rw [List.length_cons, List.replicate_succ, List.zipWith_cons_cons, ih,
        UInt8.xor_zero]
  rw [xorBlock_octets (by simpa using h) hstate
      (by rw [List.length_append, List.length_append, List.length_replicate, ha, hb]),
    List.zipWith_append ha, hzeros,
    xorBlock_octets (b := a) (c := b ++ c) (by omega) (by rw [hstate, List.append_assoc]) ha,
    List.append_assoc]

theorem xorAt_xorAt (state : State) {i : Nat} {x y : UInt8} (h : i + 1 ≤ 200) :
    xorAt (xorAt state i [x] h) i [y] h = xorAt state i [x ^^^ y] h := by
  obtain ⟨a, b, c, hstate, ha, hb⟩ := state_split state h
  obtain ⟨z, rfl⟩ := List.length_eq_one_iff.mp hb
  have hfirst := xorAt_octets [x] h hstate ha rfl
  refine FixedBytes.ext ?_
  rw [xorAt_octets [y] h hfirst ha rfl, xorAt_octets [x ^^^ y] h hstate ha rfl]
  simp only [List.zipWith_cons_cons, List.zipWith_nil_left]
  rw [UInt8.xor_assoc]

/-! ## Absorbing -/

theorem absorbed_block (permute : State → State) {r : Nat} (hr : 0 < r) {whole block : Bytes}
    (hwhole : r ∣ whole.length) (hblock : block.length = r) :
    absorbed permute r (whole ++ block) =
      permute (xorBlock (absorbed permute r whole) block) := by
  obtain ⟨count, hcount⟩ := hwhole
  have hdiv : whole.length / r = count := by
    rw [hcount, Nat.mul_div_cancel_left _ hr]
  have hboth : (whole ++ block).length / r = count + 1 := by
    rw [List.length_append, hcount, hblock, ← Nat.mul_succ, Nat.mul_div_cancel_left _ hr]
  rw [absorbed, absorbed, hboth, hdiv, foldBlocks_append_right block hcount, foldBlocks_one,
    List.take_of_length_le (Nat.le_of_eq hblock)]

theorem absorbed_nil (permute : State → State) (r : Nat) :
    absorbed permute r [] = .zeroed 200 := by
  rw [absorbed, List.length_nil, Nat.zero_div, foldBlocks_zero]

namespace KeccakSponge

structure Absorbs (permute : State → State) (s : KeccakSponge) (r : Nat) (delimiter : UInt8)
    (message whole tail : Bytes) : Prop where
  split : EagerSplit r message whole tail
  mode_eq : s.mode = .absorbing
  rate_eq : s.rate = r
  padding_eq : s.padding = delimiter
  pos_eq : s.pos = tail.length
  state_eq : s.state = xorBlock (absorbed permute r whole) tail

variable {permute : State → State} {r : Nat} {delimiter : UInt8}

theorem absorbs_new (hr : 0 < r) : Absorbs permute (new r delimiter) r delimiter [] [] [] :=
  ⟨EagerSplit.nil hr, rfl, rfl, rfl, rfl, by rw [absorbed_nil, xorBlock_nil]; rfl⟩

theorem absorbChunk_holds (hr : 0 < r) (hr200 : r < 200) {s : KeccakSponge}
    {message whole tail chunk : Bytes}
    (h : Absorbs permute s r delimiter message whole tail)
    (hfits : tail.length + chunk.length ≤ r) :
    ∃ s' whole' tail', absorbChunk permute s chunk = some s' ∧
      Absorbs permute s' r delimiter (message ++ chunk) whole' tail' := by
  have hpos := h.pos_eq
  have hbound : s.pos + chunk.length ≤ 200 := by omega
  have hstate : xorAt s.state s.pos chunk hbound =
      xorBlock (absorbed permute r whole) (tail ++ chunk) := by
    rw [← xorAt_xorBlock _ (by omega)]
    congr 1
    · exact h.state_eq
  rw [absorbChunk, dif_pos hbound]
  simp only [hstate]
  by_cases hfull : s.pos + chunk.length = s.rate
  · have hblock : (tail ++ chunk).length = r := by
      rw [List.length_append, ← hpos, hfull, h.rate_eq]
    rw [if_pos hfull]
    refine ⟨_, whole ++ (tail ++ chunk), [], rfl, ⟨?_, ?_, hr⟩, h.mode_eq, h.rate_eq,
      h.padding_eq, rfl, ?_⟩
    · rw [h.split.eq, List.append_nil, List.append_assoc]
    · rw [List.length_append, hblock]
      exact Nat.dvd_add h.split.dvd (Nat.dvd_refl r)
    · rw [xorBlock_nil, absorbed_block permute hr h.split.dvd hblock]
      rfl
  · have hrate := h.rate_eq
    rw [if_neg hfull]
    refine ⟨_, whole, tail ++ chunk, rfl, h.split.grow (by omega), h.mode_eq, h.rate_eq,
      h.padding_eq, ?_, rfl⟩
    rw [List.length_append, ← hpos]

theorem absorbChunks_holds (hr : 0 < r) (hr200 : r < 200) (data : Bytes) :
    ∀ {s : KeccakSponge} {message whole tail : Bytes},
      Absorbs permute s r delimiter message whole tail → tail = [] →
      ∃ s' whole' tail', absorbChunks permute s (chunks r data) = some s' ∧
        Absorbs permute s' r delimiter (message ++ data) whole' tail' := by
  induction data using chunks.induct r with
  | case1 data hend =>
    intro s message whole tail h _
    have hnil : data = [] := by
      rcases hend with hnil | hzero
      · exact hnil
      · omega
    refine ⟨s, whole, tail, ?_, ?_⟩
    · rw [chunks, if_pos hend]
      rfl
    · rwa [hnil, List.append_nil]
  | case2 data hgo ih =>
    intro s message whole tail h htail
    rw [chunks, if_neg hgo, absorbChunks]
    obtain ⟨next, whole', tail', hchunk, hnext⟩ := absorbChunk_holds hr hr200 h
      (by rw [htail]; simp : tail.length + (data.take r).length ≤ r)
    rw [hchunk]
    by_cases hlong : r ≤ data.length
    · -- A full chunk ends on a block boundary again.
      have hboundary : tail' = [] := by
        have hmod := hnext.split.length_mod
        rw [List.length_append, List.length_take, Nat.min_eq_left hlong,
          Nat.add_mod_right, h.split.length_mod, htail, List.length_nil] at hmod
        exact List.length_eq_zero_iff.mp hmod.symm
      obtain ⟨last, whole'', tail'', hrest, hlast⟩ := ih hnext hboundary
      refine ⟨last, whole'', tail'', hrest, ?_⟩
      rwa [List.append_assoc, List.take_append_drop] at hlast
    · have hdrop : data.drop r = [] := List.drop_of_length_le (by omega)
      have htake : data.take r = data := List.take_of_length_le (by omega)
      rw [htake] at hnext
      refine ⟨next, whole', tail', ?_, hnext⟩
      rw [hdrop, chunks, if_pos (Or.inl rfl)]
      rfl

theorem absorb_holds (hr : 0 < r) (hr200 : r < 200) {s : KeccakSponge}
    {message whole tail : Bytes} (h : Absorbs permute s r delimiter message whole tail)
    (data : Bytes) :
    ∃ s' whole' tail', absorb permute s data = some s' ∧
      Absorbs permute s' r delimiter (message ++ data) whole' tail' := by
  obtain ⟨remainder, hremainder⟩ : ∃ n, min (s.rate - s.pos) data.length = n := ⟨_, rfl⟩
  have hrate := h.rate_eq
  have hpos := h.pos_eq
  have hshort := h.split.short
  obtain ⟨next, whole', tail', hchunk, hnext⟩ := absorbChunk_holds hr hr200 h
    (by rw [List.length_take]; omega : tail.length + (data.take remainder).length ≤ r)
  simp only [absorb, if_pos h.mode_eq, hremainder, Option.bind_eq_bind, hchunk,
    Option.bind_some, hnext.rate_eq]
  by_cases hfill : tail.length + remainder = r
  · have hboundary : tail' = [] := by
      have hmod := hnext.split.length_mod
      have hsum : (message ++ data.take remainder).length % r = 0 := by
        rw [List.length_append, List.length_take, Nat.min_eq_left (by omega), Nat.add_mod,
          h.split.length_mod, ← Nat.mod_eq_of_lt hshort, ← Nat.add_mod, hfill, Nat.mod_self]
      rw [hsum] at hmod
      exact List.length_eq_zero_iff.mp hmod.symm
    obtain ⟨last, whole'', tail'', hrest, hlast⟩ :=
      absorbChunks_holds hr hr200 (data.drop remainder) hnext hboundary
    refine ⟨last, whole'', tail'', hrest, ?_⟩
    rwa [List.append_assoc, List.take_append_drop] at hlast
  · -- The data do not fill the block.
    have hall : data.length ≤ remainder := by omega
    rw [List.drop_of_length_le hall, chunks, if_pos (Or.inl rfl)]
    rw [List.take_of_length_le hall] at hnext
    exact ⟨next, whole', tail', rfl, hnext⟩

theorem absorbs_holds (hr : 0 < r) (hr200 : r < 200) (parts : List Bytes) :
    ∀ {s : KeccakSponge} {message whole tail : Bytes},
      Absorbs permute s r delimiter message whole tail →
      ∃ s' whole' tail', absorbs permute s parts = some s' ∧
        Absorbs permute s' r delimiter (message ++ parts.flatten) whole' tail' := by
  induction parts with
  | nil =>
    intro s message whole tail h
    exact ⟨s, whole, tail, rfl, by simpa using h⟩
  | cons data rest ih =>
    intro s message whole tail h
    obtain ⟨next, whole', tail', habsorb, hnext⟩ := absorb_holds hr hr200 h data
    obtain ⟨last, whole'', tail'', hrest, hlast⟩ := ih hnext
    refine ⟨last, whole'', tail'', ?_, ?_⟩
    · rw [absorbs, habsorb]
      exact hrest
    · rwa [List.flatten_cons, ← List.append_assoc]

/-! ## Padding -/

theorem domainPad_length (delimiter : UInt8) {q : Nat} (hq : 0 < q) :
    (domainPad delimiter q).length = q := by
  rw [domainPad]
  split
  · next hone => rw [hone, List.length_singleton]
  · rw [List.length_append, List.length_cons, List.length_replicate, List.length_singleton]
    omega

theorem xorOctet_eq {s : KeccakSponge} {front : Bytes} {state : State} {octet : UInt8}
    (hstate : s.state = xorBlock state front) (h : front.length + 1 ≤ 200) :
    xorOctet s front.length octet = some { s with state := xorBlock state (front ++ [octet]) } := by
  have hbound : front.length + [octet].length ≤ 200 := h
  rw [xorOctet, dif_pos hbound]
  simp only [hstate]
  rw [xorAt_xorBlock state hbound]

theorem padAndPermute_holds (hr : 0 < r) (hr200 : r < 200) {s : KeccakSponge}
    {message whole tail : Bytes} (h : Absorbs permute s r delimiter message whole tail) :
    ∃ s', padAndPermute permute s = some s' ∧ s'.rate = r ∧ s'.pos = 0 ∧
      s'.state = absorbed permute r (padded r delimiter message) := by
  have hshort := h.split.short
  have hpadded : padded r delimiter message =
      whole ++ (tail ++ domainPad delimiter (r - tail.length)) := by
    rw [padded, h.split.length_mod, ← List.append_assoc, ← h.split.eq]
  have hblock : (tail ++ domainPad delimiter (r - tail.length)).length = r := by
    rw [List.length_append, domainPad_length delimiter (by omega)]
    omega
  have hresult := absorbed_block permute hr h.split.dvd hblock
  rw [← hpadded] at hresult
  have hfirst := @xorOctet_eq s tail _ s.padding h.state_eq (by omega)
  rw [← h.pos_eq] at hfirst
  rw [padAndPermute, hfirst, Option.bind_eq_bind, Option.bind_some]
  -- The state to which both octets have been added.
  have hlast : ∃ t : KeccakSponge, xorOctet
      { s with state := xorBlock (absorbed permute r whole) (tail ++ [s.padding]) }
      (s.rate - 1) 0x80 = some t ∧ t.rate = r ∧ t.state =
        xorBlock (absorbed permute r whole) (tail ++ domainPad delimiter (r - tail.length)) := by
    rw [h.rate_eq, h.padding_eq]
    by_cases hone : r - tail.length = 1
    · have hindex : r - 1 = tail.length := by omega
      have hbound : tail.length + [(0x80 : UInt8)].length ≤ 200 := by
        rw [List.length_singleton]
        omega
      rw [hindex, xorOctet, dif_pos hbound]
      refine ⟨_, rfl, rfl, ?_⟩
      rw [domainPad, if_pos hone]
      show xorAt (xorBlock _ (tail ++ [delimiter])) tail.length [0x80] hbound = _
      rw [← @xorAt_xorBlock (absorbed permute r whole) tail [delimiter] hbound,
        ← @xorAt_xorBlock (absorbed permute r whole) tail [delimiter ^^^ 0x80] hbound]
      exact xorAt_xorAt _ hbound
    · have hzeros : xorBlock (absorbed permute r whole) (tail ++ [delimiter]) =
          xorBlock (absorbed permute r whole)
            (tail ++ [delimiter] ++ List.replicate (r - tail.length - 2) 0) :=
        (xorBlock_zeros _ (by simp; omega)).symm
      have hindex : r - 1 =
          (tail ++ [delimiter] ++ List.replicate (r - tail.length - 2) 0).length := by
        simp
        omega
      rw [hindex]
      refine ⟨_, xorOctet_eq hzeros (by omega), rfl, ?_⟩
      rw [domainPad, if_neg hone]
      simp
  obtain ⟨t, ht, hrate, hstate⟩ := hlast
  rw [ht, Option.bind_some]
  refine ⟨_, rfl, hrate, rfl, ?_⟩
  rw [hresult, ← hstate]
  rfl

end KeccakSponge

/-! ## Squeezing -/

def streamOctet (permute : State → State) (r : Nat) (state : State) (i : Nat) : UInt8 :=
  (permute^[i / r] state).octets.getD (i % r) 0

def streamFrom (permute : State → State) (r : Nat) (state : State) (n count : Nat) : Bytes :=
  (List.range count).map fun i => streamOctet permute r state (n + i)

theorem streamFrom_append (permute : State → State) (r : Nat) (state : State) (n a b : Nat) :
    streamFrom permute r state n a ++ streamFrom permute r state (n + a) b =
      streamFrom permute r state n (a + b) := by
  simp only [streamFrom, List.range_add, List.map_append, List.map_map]
  congr 1
  refine List.map_congr_left fun i _ => ?_
  rw [Function.comp_apply, Nat.add_assoc]

theorem squeezed_eq (permute : State → State) {r : Nat} (hr : 0 < r) (hr200 : r < 200)
    (state : State) (count : Nat) :
    squeezed permute r state count = streamFrom permute r state 0 count := by
  have hchunk : ∀ i, i < count / r + 1 → ((permute^[i] state).octets.take r).length = r := by
    intro i _
    rw [List.length_take, (permute^[i] state).length_eq]
    omega
  have hlength := length_ofChunks hchunk
  have hcount : count < r * (count / r + 1) := Nat.lt_mul_div_succ count hr
  refine ext_getD ?_ 0 fun i hi => ?_
  · rw [squeezed, ← ofChunks, List.length_take, hlength, streamFrom, List.length_map,
      List.length_range]
    omega
  · have hi' : i < count := by
      rw [squeezed, List.length_take] at hi
      omega
    have hblock : i / r < count / r + 1 :=
      Nat.lt_succ_of_le (Nat.div_le_div_right (Nat.le_of_lt hi'))
    have hcell := getD_ofChunks hchunk hblock (Nat.mod_lt i hr) 0
    rw [Nat.div_add_mod] at hcell
    rw [streamFrom, getD_map_range _ hi', squeezed, ← ofChunks, List.getD_eq_getElem?_getD,
      List.getElem?_take_of_lt hi', ← List.getD_eq_getElem?_getD, hcell, Nat.zero_add,
      streamOctet, List.getD_eq_getElem?_getD, List.getElem?_take_of_lt (Nat.mod_lt i hr),
      ← List.getD_eq_getElem?_getD]

namespace KeccakSponge

variable {permute : State → State} {r : Nat} {delimiter : UInt8}

/-- A sponge that has given `n` octets from the padded state. -/
structure Squeezes (permute : State → State) (s : KeccakSponge) (r : Nat) (state : State)
    (n : Nat) : Prop where
  mode_eq : s.mode = .squeezing
  rate_eq : s.rate = r
  pos_le : s.pos ≤ r
  position : ∃ k, s.state = permute^[k] state ∧ n = k * r + s.pos

theorem squeezes_refresh {s : KeccakSponge} {state : State} {n : Nat}
    (h : Squeezes permute s r state n) :
    ∃ t, (if s.pos = s.rate then permuteAndResetPos permute s else s) = t ∧
      Squeezes permute t r state n ∧ t.pos = if s.pos = r then 0 else s.pos := by
  rw [h.rate_eq]
  split
  · next hfull =>
    obtain ⟨k, hstate, hn⟩ := h.position
    refine ⟨_, rfl, ⟨h.mode_eq, h.rate_eq, Nat.zero_le r, k + 1, ?_, ?_⟩, rfl⟩
    · rw [Function.iterate_succ_apply', ← hstate]
      rfl
    · rw [hn, hfull, Nat.succ_mul]
      rfl
  · exact ⟨s, rfl, h, rfl⟩

theorem squeezeChunk_holds (hr200 : r < 200) {s : KeccakSponge} {state : State} {n : Nat}
    (h : Squeezes permute s r state n) (count : Nat)
    (hfits : (if s.pos = r then 0 else s.pos) + count ≤ r) :
    ∃ s', squeezeChunk permute s count = some (streamFrom permute r state n count, s') ∧
      Squeezes permute s' r state (n + count) ∧
      s'.pos = (if s.pos = r then 0 else s.pos) + count := by
  obtain ⟨t, ht, hsqueezes, hpos⟩ := squeezes_refresh h
  obtain ⟨k, hstate, hn⟩ := hsqueezes.position
  have hbound : t.pos + count ≤ 200 := by omega
  have hout : (t.state.octets.drop t.pos).take count = streamFrom permute r state n count := by
    have hlength := t.state.length_eq
    refine ext_getD ?_ 0 fun i hi => ?_
    · rw [streamFrom, List.length_map, List.length_range, List.length_take, List.length_drop]
      omega
    · have hi' : i < count := by
        rw [List.length_take] at hi
        omega
      have hlt : t.pos + i < r := by omega
      have hdiv : (n + i) / r = k := by
        rw [hn, Nat.add_assoc, Nat.mul_comm, Nat.mul_add_div (by omega), Nat.div_eq_of_lt hlt,
          Nat.add_zero]
      have hmod : (n + i) % r = t.pos + i := by
        rw [hn, Nat.add_assoc, Nat.mul_comm, Nat.mul_add_mod, Nat.mod_eq_of_lt hlt]
      rw [streamFrom, getD_map_range _ hi', streamOctet, hdiv, hmod, ← hstate,
        List.getD_eq_getElem?_getD, List.getElem?_take_of_lt hi', List.getElem?_drop,
        ← List.getD_eq_getElem?_getD]
  refine ⟨{ t with pos := t.pos + count }, ?_, ⟨hsqueezes.mode_eq, hsqueezes.rate_eq, ?_, k,
    hstate, ?_⟩, ?_⟩
  · simp only [squeezeChunk, ht, if_pos hbound, hout]
  · show t.pos + count ≤ r
    omega
  · rw [hn, Nat.add_assoc]
  · show t.pos + count = _
    rw [hpos]

theorem squeezeChunks_holds (hr : 0 < r) (hr200 : r < 200) {state : State} (count : Nat) :
    ∀ {s : KeccakSponge} {n : Nat}, Squeezes permute s r state n → s.pos = 0 ∨ s.pos = r →
      ∃ s', squeezeChunks permute s (chunkLengths r count) =
          some (streamFrom permute r state n count, s') ∧
        Squeezes permute s' r state (n + count) := by
  induction count using chunkLengths.induct r with
  | case1 count hend =>
    intro s n h _
    have hzero : count = 0 := by omega
    refine ⟨s, ?_, ?_⟩
    · rw [chunkLengths, if_pos hend, hzero]
      rfl
    · rwa [hzero]
  | case2 count hgo ih =>
    intro s n h hboundary
    have hstart : (if s.pos = r then 0 else s.pos) = 0 := by
      split
      · rfl
      · omega
    obtain ⟨next, hchunk, hnext, hpos⟩ := squeezeChunk_holds hr200 h (min r count)
      (by rw [hstart]; omega)
    rw [hstart, Nat.zero_add] at hpos
    rw [chunkLengths, if_neg hgo, squeezeChunks, hchunk, Option.bind_eq_bind,
      Option.bind_some]
    by_cases hlong : r ≤ count
    · rw [Nat.min_eq_left hlong] at hpos hnext ⊢
      obtain ⟨last, hrest, hlast⟩ := ih hnext (Or.inr hpos)
      refine ⟨last, ?_, ?_⟩
      · simp only [hrest, Option.bind_some]
        rw [streamFrom_append, Nat.add_sub_cancel' hlong]
      · rwa [Nat.add_assoc, Nat.add_sub_cancel' hlong] at hlast
    · rw [Nat.min_eq_right (by omega)] at hnext ⊢
      have hnone : count - r = 0 := by omega
      refine ⟨next, ?_, hnext⟩
      rw [hnone, chunkLengths, if_pos (Or.inl rfl)]
      simp [squeezeChunks]

theorem squeeze_ready (hr : 0 < r) (hr200 : r < 200) {s : KeccakSponge} {message : Bytes}
    {n : Nat}
    (h : (∃ whole tail, Absorbs permute s r delimiter message whole tail ∧ n = 0) ∨
      Squeezes permute s r (absorbed permute r (padded r delimiter message)) n) :
    ∃ t, startSqueezing permute s = some t ∧
      Squeezes permute t r (absorbed permute r (padded r delimiter message)) n := by
  rcases h with ⟨whole, tail, h, rfl⟩ | h
  · obtain ⟨t, ht, hrate, hpos, hstate⟩ := padAndPermute_holds hr hr200 h
    rw [startSqueezing, if_pos h.mode_eq, ht]
    refine ⟨_, rfl, rfl, hrate, ?_, 0, hstate, ?_⟩
    · show t.pos ≤ r
      omega
    · show 0 = 0 * r + t.pos
      omega
  · rw [startSqueezing, if_neg (by rw [h.mode_eq]; decide)]
    exact ⟨s, rfl, h⟩

theorem squeeze_holds (hr : 0 < r) (hr200 : r < 200) {s : KeccakSponge} {message : Bytes}
    {n : Nat}
    (h : (∃ whole tail, Absorbs permute s r delimiter message whole tail ∧ n = 0) ∨
      Squeezes permute s r (absorbed permute r (padded r delimiter message)) n) (count : Nat) :
    ∃ s', squeeze permute s count = some (streamFrom permute r
        (absorbed permute r (padded r delimiter message)) n count, s') ∧
      Squeezes permute s' r (absorbed permute r (padded r delimiter message)) (n + count) := by
  obtain ⟨t, ht, hready⟩ := squeeze_ready hr hr200 h
  have hle := hready.pos_le
  obtain ⟨remainder, hremainder⟩ : ∃ m, min (r - t.pos) count = m := ⟨_, rfl⟩
  obtain ⟨next, hchunk, hnext, hpos⟩ := squeezeChunk_holds hr200 hready remainder
    (by split <;> omega)
  simp only [squeeze, ht, Option.bind_eq_bind, Option.bind_some, hready.rate_eq, hremainder,
    hchunk, hnext.rate_eq]
  by_cases hrest : count - remainder = 0
  · refine ⟨next, ?_, ?_⟩
    · rw [hrest, chunkLengths, if_pos (Or.inl rfl)]
      have hall : remainder = count := by omega
      rw [hall]
      simp [squeezeChunks]
    · have hall : remainder = count := by omega
      rwa [hall] at hnext
  · have hboundary : next.pos = 0 ∨ next.pos = r := by
      rw [hpos]
      split <;> omega
    obtain ⟨last, hchunks, hlast⟩ :=
      squeezeChunks_holds hr hr200 (count - remainder) hnext hboundary
    have hsum : remainder + (count - remainder) = count := by omega
    refine ⟨last, ?_, ?_⟩
    · rw [hchunks, Option.bind_some, streamFrom_append, hsum]
    · rwa [Nat.add_assoc, hsum] at hlast

theorem squeezes_holds (hr : 0 < r) (hr200 : r < 200) {message : Bytes} (counts : List Nat) :
    ∀ {s : KeccakSponge} {n : Nat},
      ((∃ whole tail, Absorbs permute s r delimiter message whole tail ∧ n = 0) ∨
        Squeezes permute s r (absorbed permute r (padded r delimiter message)) n) →
      ∃ outs s', squeezes permute s counts = some (outs, s') ∧
        outs.flatten = streamFrom permute r (absorbed permute r (padded r delimiter message)) n
          counts.sum ∧
        outs.map List.length = counts ∧ s'.pos ≤ r := by
  induction counts with
  | nil =>
    intro s n h
    refine ⟨[], s, rfl, rfl, rfl, ?_⟩
    rcases h with ⟨whole, tail, h, _⟩ | h
    · have := h.split.short
      have := h.pos_eq
      omega
    · exact h.pos_le
  | cons count counts ih =>
    intro s n h
    obtain ⟨next, hsqueeze, hnext⟩ := squeeze_holds hr hr200 h count
    obtain ⟨outs, last, hrest, hflatten, hlengths, hpos⟩ := ih (Or.inr hnext)
    refine ⟨streamFrom permute r (absorbed permute r (padded r delimiter message)) n count ::
      outs, last, ?_, ?_, ?_, hpos⟩
    · simp only [squeezes, hsqueeze, Option.bind_eq_bind, Option.bind_some, hrest]
    · rw [List.flatten_cons, hflatten, streamFrom_append, List.sum_cons]
    · rw [List.map_cons, hlengths, streamFrom, List.length_map, List.length_range]

/-- However the message and the output are split, the sponge gives the octets of the plain
sponge, no call panics and the position stays within the rate. -/
theorem streams (permute : State → State) (hr : 0 < r) (hr200 : r < 200) (delimiter : UInt8)
    (parts : List Bytes) (counts : List Nat) :
    ∃ mid outs last, absorbs permute (new r delimiter) parts = some mid ∧ mid.pos ≤ r ∧
      squeezes permute mid counts = some (outs, last) ∧ last.pos ≤ r ∧
      outs.map List.length = counts ∧
      outs.flatten = sponge permute r delimiter parts.flatten counts.sum := by
  obtain ⟨mid, whole, tail, habsorbs, hmid⟩ :=
    absorbs_holds hr hr200 parts (@absorbs_new permute r delimiter hr)
  rw [List.nil_append] at hmid
  obtain ⟨outs, last, hsqueezes, hflatten, hlengths, hpos⟩ :=
    squeezes_holds hr hr200 counts (Or.inl ⟨whole, tail, hmid, rfl⟩)
  have hshort := hmid.split.short
  have hmidpos := hmid.pos_eq
  refine ⟨mid, outs, last, habsorbs, by omega, hsqueezes, hpos, hlengths, ?_⟩
  rw [hflatten, sponge, squeezed_eq permute hr hr200]

end KeccakSponge

end Stdx.Hashes
