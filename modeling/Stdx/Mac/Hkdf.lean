import Stdx.Foundation.Padding
import Stdx.Mac.Hmac

/-!
# HKDF-Expand

The loop of `hkdf.rs` over its output buffer, against the block sequence of RFC 5869.
-/

namespace Stdx.Mac

open Stdx.Foundation

inductive HkdfError where
  | prkIsTooShort (size : Nat)
  | outputIsTooLong
  deriving DecidableEq, Repr

/-- `dst[i..i + src.len()].copy_from_slice(src)` -/
def copyAt (dst : Bytes) (i : Nat) (src : Bytes) : Bytes :=
  dst.take i ++ src ++ dst.drop (i + src.length)

structure ExpandState where
  okm : Bytes
  t : Bytes
  tLen : Nat
  offset : Nat
  counter : UInt8

section Model

variable (H : Hasher) (prk info : Bytes)

/-- One block; `none` is the panic of `Hmac::new`. -/
def expandRound (s : ExpandState) : Option ExpandState := do
  let mac : Hmac H ← Hmac.new (prk.take H.OUTPUT_SIZE)
  let mac := mac.update (s.t.take s.tLen)
  let mac := mac.update info
  let mac := mac.update [s.counter]
  let block := mac.finalize
  let chunkLen := min (s.okm.length - s.offset) H.OUTPUT_SIZE
  some {
    okm := copyAt s.okm s.offset (block.take chunkLen)
    t := copyAt s.t 0 block
    tLen := H.OUTPUT_SIZE
    offset := s.offset + chunkLen
    counter := s.counter + 1 }

def expand (okm : Bytes) : Option (Except HkdfError Unit × Bytes) :=
  if prk.length < H.OUTPUT_SIZE then some (.error (.prkIsTooShort H.OUTPUT_SIZE), okm)
  else if okm.length > 255 * H.OUTPUT_SIZE then some (.error .outputIsTooLong, okm)
  else if okm.length = 0 then some (.ok (), okm)
  else
    (whileLoop
      (fun s : Option ExpandState => s.elim false fun s => decide (s.offset < s.okm.length))
      (fun s => s.bind (expandRound H prk info)) (okm.length + 1)
      (some ⟨okm, List.replicate MAX_HASH_OUTPUT_SIZE 0, 0, 0, 1⟩)).map fun s => (.ok (), s.okm)

end Model

/-! ## RFC 5869 -/

section Blocks

variable (mac : Bytes → Bytes) (info : Bytes)

/-- `T(i)`, with `T(0)` empty. -/
def outputBlock : Nat → Bytes
  | 0 => []
  | i + 1 => mac (outputBlock i ++ info ++ [UInt8.ofNat (i + 1)])

/-- `T(1) || T(2) || ... || T(count)` -/
def outputBlocks (count : Nat) : Bytes :=
  (List.range count).flatMap fun i => outputBlock mac info (i + 1)

theorem outputBlocks_succ (count : Nat) :
    outputBlocks mac info (count + 1) =
      outputBlocks mac info count ++ outputBlock mac info (count + 1) := by
  simp [outputBlocks, List.range_succ]

variable {mac}

theorem outputBlocks_length {size : Nat} (hmac : ∀ message, (mac message).length = size)
    (count : Nat) : (outputBlocks mac info count).length = count * size := by
  induction count with
  | zero => simp [outputBlocks]
  | succ count ih =>
    rw [outputBlocks_succ, List.length_append, ih, Nat.succ_mul]
    congr 1
    exact hmac _

theorem outputBlocks_take {size n count more : Nat} (hmac : ∀ message, (mac message).length = size)
    (hn : n ≤ count * size) (hle : count ≤ more) :
    (outputBlocks mac info more).take n = (outputBlocks mac info count).take n := by
  obtain ⟨extra, rfl⟩ := Nat.exists_eq_add_of_le hle
  clear hle
  induction extra with
  | zero => rfl
  | succ extra ih =>
    have hlength := outputBlocks_length info hmac (count + extra)
    have hroom : n ≤ (outputBlocks mac info (count + extra)).length := by
      rw [hlength, Nat.add_mul]
      omega
    rw [← Nat.add_assoc, outputBlocks_succ, List.take_append_of_le_length hroom]
    exact ih

end Blocks

/-! ## The loop -/

/-- After `count` rounds: their blocks in front, the last one kept for the next. -/
structure ExpandInv (mac : Bytes → Bytes) (info : Bytes) (size n count : Nat) (s : ExpandState) :
    Prop where
  length_eq : s.okm.length = n
  previous : s.t.take s.tLen = outputBlock mac info count
  room : s.t.length = MAX_HASH_OUTPUT_SIZE
  counter_eq : s.counter = UInt8.ofNat (count + 1)
  offset_eq : s.offset = min n (count * size)
  front : s.okm.take s.offset = (outputBlocks mac info count).take s.offset

theorem copyAt_length {dst src : Bytes} {i : Nat} (h : i + src.length ≤ dst.length) :
    (copyAt dst i src).length = dst.length := by
  simp only [copyAt, List.length_append, List.length_take, List.length_drop]
  omega

theorem copyAt_take {dst src : Bytes} {i : Nat} (h : i ≤ dst.length) :
    (copyAt dst i src).take (i + src.length) = dst.take i ++ src := by
  have hlength : (dst.take i ++ src).length = i + src.length := by
    rw [List.length_append, List.length_take_of_le h]
  rw [copyAt, ← hlength, List.take_left]

section Runs

variable {H : Hasher} {prk info : Bytes} {n count : Nat} {s : ExpandState}

theorem expandRound_spec (hblock : H.BLOCK_SIZE ≤ MAX_HASH_BLOCK_SIZE)
    (h : ExpandInv (hmac H (prk.take H.OUTPUT_SIZE)) info H.OUTPUT_SIZE n count s)
    (hmore : s.offset < n) :
    ∃ s', expandRound H prk info s = some s' ∧
      ExpandInv (hmac H (prk.take H.OUTPUT_SIZE)) info H.OUTPUT_SIZE n (count + 1) s' := by
  have hlength := h.length_eq
  have hoffset := h.offset_eq
  obtain ⟨mac, hnew, htag⟩ := Hmac.finalize_updates (H := H) (prk.take H.OUTPUT_SIZE) hblock
    [s.t.take s.tLen, info, [s.counter]]
  have hmessage : [s.t.take s.tLen, info, [s.counter]].flatten =
      outputBlock (hmac H (prk.take H.OUTPUT_SIZE)) info count ++ info ++
        [UInt8.ofNat (count + 1)] := by
    rw [h.previous, h.counter_eq]
    simp
  rw [hmessage] at htag
  have hcurrent : hmac H (prk.take H.OUTPUT_SIZE)
      (outputBlock (hmac H (prk.take H.OUTPUT_SIZE)) info count ++ info ++
        [UInt8.ofNat (count + 1)]) =
      outputBlock (hmac H (prk.take H.OUTPUT_SIZE)) info (count + 1) := rfl
  rw [hcurrent] at htag
  have hsize : (outputBlock (hmac H (prk.take H.OUTPUT_SIZE)) info (count + 1)).length =
      H.OUTPUT_SIZE := hmac_length _ _ _
  have hall := outputBlocks_length info (hmac_length H (prk.take H.OUTPUT_SIZE)) count
  have hnext := outputBlocks_succ (hmac H (prk.take H.OUTPUT_SIZE)) info count
  generalize hblockEq : outputBlock (hmac H (prk.take H.OUTPUT_SIZE)) info (count + 1) = block at *
  have hchunk : (block.take (min (n - s.offset) H.OUTPUT_SIZE)).length =
      min (n - s.offset) H.OUTPUT_SIZE := by
    rw [List.length_take, hsize]
    omega
  have houtput := H.output_le
  -- the whole blocks so far are in front, since there is still something to write
  have hwhole : s.offset = count * H.OUTPUT_SIZE := by omega
  have hround : expandRound H prk info s = some
      ⟨copyAt s.okm s.offset (block.take (min (n - s.offset) H.OUTPUT_SIZE)), copyAt s.t 0 block,
        H.OUTPUT_SIZE, s.offset + min (n - s.offset) H.OUTPUT_SIZE, s.counter + 1⟩ := by
    rw [← htag, expandRound, hnew, hlength]
    rfl
  refine ⟨_, hround, ?_, ?_, ?_, ?_, ?_, ?_⟩
  · exact (copyAt_length (by rw [hchunk]; omega)).trans hlength
  · have htake := @copyAt_take s.t block _ (Nat.zero_le _)
    rw [Nat.zero_add, hsize] at htake
    exact htake.trans hblockEq.symm
  · exact (copyAt_length (by rw [hsize, h.room]; omega)).trans h.room
  · change s.counter + 1 = _
    rw [h.counter_eq, UInt8.ofNat_add (count + 1) 1]
    rfl
  · rw [Nat.add_mul]
    simp only
    omega
  · have htake := @copyAt_take s.okm (block.take (min (n - s.offset) H.OUTPUT_SIZE)) s.offset
      (by omega)
    rw [hchunk, h.front] at htake
    simp only
    rw [htake, hnext, hwhole, ← hall, List.take_length, List.take_length_add_append]

theorem expand_loop (hblock : H.BLOCK_SIZE ≤ MAX_HASH_BLOCK_SIZE) {okm : Bytes}
    (hlong : okm.length ≤ 255 * H.OUTPUT_SIZE) :
    (whileLoop
      (fun s : Option ExpandState => s.elim false fun s => decide (s.offset < s.okm.length))
      (fun s => s.bind (expandRound H prk info)) (okm.length + 1)
      (some ⟨okm, List.replicate MAX_HASH_OUTPUT_SIZE 0, 0, 0, 1⟩)).map (·.okm) =
      some ((outputBlocks (hmac H (prk.take H.OUTPUT_SIZE)) info 255).take okm.length) := by
  have hstart : ExpandInv (hmac H (prk.take H.OUTPUT_SIZE)) info H.OUTPUT_SIZE okm.length 0
      ⟨okm, List.replicate MAX_HASH_OUTPUT_SIZE 0, 0, 0, 1⟩ :=
    ⟨rfl, rfl, by simp, rfl, by simp, by simp⟩
  obtain ⟨⟨s, count, hs, hinv⟩, hexit⟩ := whileLoop_rule
    (c := fun s : Option ExpandState => s.elim false fun s => decide (s.offset < s.okm.length))
    (f := fun s => s.bind (expandRound H prk info))
    (I := fun t => ∃ s count, t = some s ∧
      ExpandInv (hmac H (prk.take H.OUTPUT_SIZE)) info H.OUTPUT_SIZE okm.length count s)
    (fun t => t.elim 0 fun s => okm.length - s.offset)
    (fun t hinv hcond => by
      obtain ⟨s, count, rfl, hinv⟩ := hinv
      have hlength := hinv.length_eq
      have hoffset := hinv.offset_eq
      have hmore : s.offset < okm.length := hlength ▸ of_decide_eq_true hcond
      obtain ⟨s', hround, hnext⟩ := expandRound_spec hblock hinv hmore
      have hoffset' := hnext.offset_eq
      refine ⟨⟨s', count + 1, hround, hnext⟩, ?_⟩
      rw [Option.bind_some, hround]
      simp only [Option.elim_some, hoffset', Nat.succ_mul]
      -- a block is not empty where something can be written
      have hpos : 0 < H.OUTPUT_SIZE := by
        by_contra hzero
        rw [Nat.eq_zero_of_not_pos hzero] at hlong
        omega
      omega)
    (k := okm.length + 1) ⟨_, 0, rfl, hstart⟩ (by simp)
  rw [hs] at hexit ⊢
  have hlength := hinv.length_eq
  have hoffset := hinv.offset_eq
  have hdone : ¬s.offset < okm.length := hlength ▸ of_decide_eq_false hexit
  have hend : s.offset = okm.length := by omega
  have hfront := hinv.front
  rw [hend, ← hlength, List.take_length, hlength] at hfront
  rw [Option.map_some, hfront]
  have hsize := hmac_length H (prk.take H.OUTPUT_SIZE)
  rcases Nat.le_total count 255 with hle | hge
  · rw [outputBlocks_take info hsize (by omega) hle]
  · rw [← outputBlocks_take info hsize hlong hge]

end Runs

/-! ## Keys -/

/-- What the documentation promises: the errors, or the blocks keyed with the whole `prk`. -/
def FollowsRfc (H : Hasher) (prk info okm : Bytes) : Prop :=
  expand H prk info okm = some
    (if prk.length < H.OUTPUT_SIZE then (.error (.prkIsTooShort H.OUTPUT_SIZE), okm)
    else if okm.length > 255 * H.OUTPUT_SIZE then (.error .outputIsTooLong, okm)
    else (.ok (), (outputBlocks (hmac H prk) info 255).take okm.length))

/-- Cutting the key to the size of a hash leaves its block as it is. -/
def KeyFits (block output : Nat) (prk : Bytes) : Prop :=
  prk.length = output ∨ prk.length ≤ block ∧ ∀ b ∈ prk.drop output, b = 0

theorem keyBlock_take {H : Hasher} {prk : Bytes} (h : KeyFits H.BLOCK_SIZE H.OUTPUT_SIZE prk) :
    keyBlock H (prk.take H.OUTPUT_SIZE) = keyBlock H prk := by
  rcases h with hlength | ⟨hle, hzero⟩
  · rw [← hlength, List.take_length]
  · have hshort : (prk.take H.OUTPUT_SIZE).length ≤ H.BLOCK_SIZE := by
      rw [List.length_take]
      omega
    unfold keyBlock normalizeKey
    rw [if_neg (Nat.not_lt.mpr hle), if_neg (Nat.not_lt.mpr hshort)]
    exact List.map_congr_left fun i _ => getD_take_of_zero hzero i

theorem followsRfc_of_keyFits {H : Hasher} {prk : Bytes} (info okm : Bytes)
    (hblock : H.BLOCK_SIZE ≤ MAX_HASH_BLOCK_SIZE) (h : KeyFits H.BLOCK_SIZE H.OUTPUT_SIZE prk) :
    FollowsRfc H prk info okm := by
  have hmac_eq : hmac H (prk.take H.OUTPUT_SIZE) = hmac H prk := by
    funext message
    rw [hmac, hmac, keyBlock_take h]
  unfold FollowsRfc expand
  split
  · rfl
  · split
    · rfl
    · next hlong =>
      split
      · next hempty => rw [List.length_eq_zero_iff.mp hempty, List.length_nil, List.take_zero]
      · have hloop := @expand_loop _ prk info hblock _ (Nat.not_lt.mp hlong)
        rw [hmac_eq] at hloop
        obtain ⟨s, hrun, hokm⟩ := Option.map_eq_some_iff.mp hloop
        rw [hrun, Option.map_some, hokm]

theorem followsRfc_of_rejected {H : Hasher} {prk info okm : Bytes}
    (h : okm = [] ∨ prk.length < H.OUTPUT_SIZE ∨ 255 * H.OUTPUT_SIZE < okm.length) :
    FollowsRfc H prk info okm := by
  unfold FollowsRfc expand
  split
  · rfl
  · next hshort =>
    split
    · rfl
    · next hlong =>
      obtain rfl : okm = [] := by
        rcases h with h | h | h
        · exact h
        · exact absurd h hshort
        · exact absurd h hlong
      simp

theorem not_followsRfc_of_head {H : Hasher} {prk info okm : Bytes} (hsome : okm ≠ [])
    (hprk : H.OUTPUT_SIZE ≤ prk.length) (hlong : okm.length ≤ 255 * H.OUTPUT_SIZE)
    (hblock : H.BLOCK_SIZE ≤ MAX_HASH_BLOCK_SIZE)
    (hhead : ∀ message, (hmac H (prk.take H.OUTPUT_SIZE) message).head? ≠
      (hmac H prk message).head?) : ¬FollowsRfc H prk info okm := by
  intro h
  have hloop := @expand_loop _ prk info hblock _ hlong
  obtain ⟨s, hrun, hokm⟩ := Option.map_eq_some_iff.mp hloop
  have hempty : ¬okm.length = 0 := fun hzero => hsome (List.length_eq_zero_iff.mp hzero)
  rw [FollowsRfc, expand, if_neg (Nat.not_lt.mpr hprk), if_neg (Nat.not_lt.mpr hlong),
    if_neg hempty, if_neg (Nat.not_lt.mpr hprk), if_neg (Nat.not_lt.mpr hlong), hrun,
    Option.map_some, hokm] at h
  have hsame : (outputBlocks (hmac H (prk.take H.OUTPUT_SIZE)) info 255).take okm.length =
      (outputBlocks (hmac H prk) info 255).take okm.length :=
    congrArg Prod.snd (Option.some.inj h)
  have hpos : 0 < H.OUTPUT_SIZE := by
    by_contra hzero
    rw [Nat.eq_zero_of_not_pos hzero] at hlong
    omega
  have hfirst (mac : Bytes → Bytes) (hmac : ∀ message, (mac message).length = H.OUTPUT_SIZE) :
      ((outputBlocks mac info 255).take okm.length).head? = (mac ([] ++ info ++ [1])).head? := by
    have hlength := hmac ([] ++ info ++ [1])
    have hsplit : outputBlocks mac info 255 = mac ([] ++ info ++ [1]) ++
        (List.range 254).flatMap fun i => outputBlock mac info (i + 2) := by
      rw [outputBlocks, List.range_succ_eq_map, List.flatMap_cons, List.flatMap_map]
      rfl
    rw [hsplit, List.head?_take, if_neg hempty, List.head?_append_of_ne_nil]
    intro hnil
    rw [hnil, List.length_nil] at hlength
    omega
  apply hhead ([] ++ info ++ [1])
  rw [← hfirst _ (hmac_length H _), ← hfirst _ (hmac_length H _), hsame]

/-! ## Hash functions that tell keys apart -/

theorem hmac_outer (H : Hasher) (key message : Bytes) :
    ∃ rest, hmac H key message = H.hash ((keyBlock H key).map (· ^^^ 0x5c) ++ rest) :=
  ⟨_, rfl⟩

theorem outer_head? (H : Hasher) (key rest : Bytes) :
    ((keyBlock H key).map (· ^^^ 0x5c) ++ rest).head? =
      some ((normalizeKey H key).getD 0 0 ^^^ 0x5c) := by
  obtain ⟨count, hcount⟩ := Nat.exists_eq_succ_of_ne_zero (Nat.ne_of_gt H.block_pos)
  rw [keyBlock, hcount, List.range_succ_eq_map]
  rfl

theorem exists_other (p : UInt8) : ∃ c : UInt8, c ≠ p ∧ c ^^^ 0x5c ≠ p ∧ c ≠ 0 ∧ c ≠ 1 := by
  by_cases h : p = 2 ∨ p = 0x5e
  · refine ⟨3, ?_, ?_, by decide, by decide⟩ <;> rcases h with rfl | rfl <;> decide
  · push Not at h
    exact ⟨2, h.1.symm, h.2.symm, by decide, by decide⟩

def paddedKey (block : Nat) (key : Bytes) : Bytes := (List.range block).map (key.getD · 0)

def outerKey (block : Nat) (key : Bytes) : Bytes := (paddedKey block key).map (· ^^^ 0x5c)

/-- Tells messages that begin with the outer block of `prk` from all others. -/
def markBlock (block output : Nat) (prk data : Bytes) : Bytes :=
  List.replicate output (if data.take block = outerKey block prk then 1 else 0)

/-- Hashes `prk` to octets `c`, and marks the messages whose first octet comes of `c`. -/
def headMark (prk : Bytes) (c : UInt8) (data : Bytes) : UInt8 :=
  if data = prk then c else if data.head? = some (c ^^^ 0x5c) then 1 else 0

def markHead (output : Nat) (prk : Bytes) (c : UInt8) (data : Bytes) : Bytes :=
  List.replicate output (headMark prk c data)

theorem outerKey_take_ne {block output : Nat} {prk : Bytes} (hle : prk.length ≤ block)
    (hne : ∃ b ∈ prk.drop output, b ≠ 0) :
    outerKey block (prk.take output) ≠ outerKey block prk := by
  obtain ⟨b, hb, hne⟩ := hne
  intro heq
  have hkeys : paddedKey block (prk.take output) = paddedKey block prk := by
    apply List.map_injective_iff.mpr _ heq
    intro x y hxy
    simpa using hxy
  obtain ⟨i, hi, rfl⟩ := List.mem_drop_iff_getElem.mp hb
  have hcell := congrArg (List.getD · (output + i) 0) hkeys
  have hlt : output + i < block := by omega
  simp only [paddedKey, List.getD_eq_getElem?_getD, List.getElem?_map, List.getElem?_range hlt,
    Option.map_some, Option.getD_some] at hcell
  rw [List.getElem?_take, if_neg (by omega), List.getElem?_eq_getElem (by omega)] at hcell
  exact hne hcell.symm

section Separation

variable {block output : Nat} {prk : Bytes} (hblock : 0 < block)
  (houtput : output ≤ MAX_HASH_OUTPUT_SIZE)

def blockHasher (prk : Bytes) : Hasher :=
  Hasher.ofFunction block output hblock houtput (markBlock block output prk)
    (by simp [markBlock])

def headHasher (prk : Bytes) (c : UInt8) : Hasher :=
  Hasher.ofFunction block output hblock houtput (markHead output prk c) (by simp [markHead])

variable (hpos : 0 < output)

include hpos

theorem head?_hmac_blockHasher (prk : Bytes) {key : Bytes} (hkey : key.length ≤ block)
    (message : Bytes) : (hmac (blockHasher hblock houtput prk) key message).head? =
      some (if outerKey block key = outerKey block prk then 1 else 0) := by
  obtain ⟨rest, hrest⟩ := hmac_outer (blockHasher hblock houtput prk) key message
  have hnormal : (keyBlock (blockHasher hblock houtput prk) key).map (· ^^^ 0x5c) =
      outerKey block key := by
    have hshort : normalizeKey (blockHasher hblock houtput prk) key = key :=
      if_neg (Nat.not_lt.mpr hkey)
    rw [keyBlock, hshort]
    rfl
  have hsize : (outerKey block key).length = block := by simp [outerKey, paddedKey]
  rw [hrest, hnormal, blockHasher, Hasher.hash_ofFunction, markBlock,
    List.take_append_of_le_length (Nat.le_of_eq hsize.symm),
    List.take_of_length_le (Nat.le_of_eq hsize), List.head?_replicate, if_neg (Nat.ne_of_gt hpos)]

theorem head?_hmac_headHasher (prk : Bytes) (c : UInt8) (key message : Bytes) :
    ∃ outer : Bytes,
      outer.head? = some ((normalizeKey (headHasher hblock houtput prk c) key).getD 0 0 ^^^ 0x5c) ∧
      (hmac (headHasher hblock houtput prk c) key message).head? = some (headMark prk c outer) := by
  obtain ⟨rest, hrest⟩ := hmac_outer (headHasher hblock houtput prk c) key message
  refine ⟨_, outer_head? _ key rest, ?_⟩
  rw [hrest]
  exact (List.head?_replicate ..).trans (if_neg (Nat.ne_of_gt hpos))

theorem getD_markHead (prk : Bytes) (c : UInt8) (data : Bytes) :
    (markHead output prk c data).getD 0 0 = headMark prk c data := by
  rw [markHead, List.getD_eq_getElem _ _ (by simpa using hpos), List.getElem_replicate]

include hblock houtput

theorem exists_hasher_short (hle : prk.length ≤ block) (hfits : ¬KeyFits block output prk) :
    ∃ H : Hasher, H.BLOCK_SIZE = block ∧ H.OUTPUT_SIZE = output ∧
      ∀ message, (hmac H (prk.take output) message).head? ≠ (hmac H prk message).head? := by
  have hrest : ∃ b ∈ prk.drop output, b ≠ 0 := by
    by_contra hzero
    push Not at hzero
    exact hfits (.inr ⟨hle, hzero⟩)
  refine ⟨blockHasher hblock houtput prk, rfl, rfl, fun message => ?_⟩
  have hcut : (prk.take output).length ≤ block := by
    rw [List.length_take]
    omega
  rw [head?_hmac_blockHasher hblock houtput hpos prk hcut,
    head?_hmac_blockHasher hblock houtput hpos prk hle, if_neg (outerKey_take_ne hle hrest),
    if_pos rfl]
  decide

theorem exists_hasher_long (hlong : output < prk.length) (hgt : block < prk.length) :
    ∃ H : Hasher, H.BLOCK_SIZE = block ∧ H.OUTPUT_SIZE = output ∧
      ∀ message, (hmac H (prk.take output) message).head? ≠ (hmac H prk message).head? := by
  obtain ⟨c, hcp, hxp, hc0, hc1⟩ := exists_other (prk.getD 0 0)
  have hprk : prk.head? = some (prk.getD 0 0) := by
    cases prk with
    | nil => simp at hlong
    | cons p rest => rfl
  have hcut : prk.take output ≠ prk := by
    intro heq
    have hlength := congrArg List.length heq
    rw [List.length_take] at hlength
    omega
  have hcutHead : (prk.take output).head? = some (prk.getD 0 0) := by
    rw [List.head?_take, if_neg (Nat.ne_of_gt hpos), hprk]
  have hwhole : (normalizeKey (headHasher hblock houtput prk c) prk).getD 0 0 = c := by
    have hnormal : normalizeKey (headHasher hblock houtput prk c) prk = markHead output prk c prk :=
      if_pos hgt
    rw [hnormal, getD_markHead hpos]
    exact if_pos rfl
  -- the cut key starts with 0, when it is hashed, or with the first octet
  have hpart : (normalizeKey (headHasher hblock houtput prk c) (prk.take output)).getD 0 0 ≠ c := by
    unfold normalizeKey
    split
    · have hzero : headMark prk c (prk.take output) = 0 := by
        simp only [headMark, if_neg hcut, hcutHead, Option.some.injEq]
        exact if_neg hxp.symm
      change (markHead output prk c (prk.take output)).getD 0 0 ≠ c
      rw [getD_markHead hpos, hzero]
      exact hc0.symm
    · rw [List.getD_eq_getElem?_getD, ← List.head?_eq_getElem?, hcutHead]
      exact hcp.symm
  refine ⟨headHasher hblock houtput prk c, rfl, rfl, fun message => ?_⟩
  obtain ⟨outer, houter, htag⟩ := head?_hmac_headHasher hblock houtput hpos prk c prk message
  obtain ⟨outer', houter', htag'⟩ :=
    head?_hmac_headHasher hblock houtput hpos prk c (prk.take output) message
  have hone : headMark prk c outer = 1 := by
    have hne : outer ≠ prk := by
      intro heq
      rw [heq, hprk, hwhole] at houter
      exact hxp (Option.some.inj houter).symm
    simp only [headMark, if_neg hne, houter, hwhole, if_true]
  have hother : headMark prk c outer' ≠ 1 := by
    have hne : outer'.head? ≠ some (c ^^^ 0x5c) := by
      rw [houter']
      intro heq
      apply hpart
      simpa using heq
    simp only [headMark, if_neg hne]
    split
    · exact hc1
    · decide
  rw [htag, htag', hone]
  exact fun heq => hother (Option.some.inj heq)

end Separation

/-- For the sizes of any hasher: `expand` is the sequence of RFC 5869 for all hash functions of
these sizes exactly when nothing is written, when the key, cut to one hash, is the whole key, or
when the rest of the key is the padding of its block. -/
theorem expand_follows_rfc5869 (H₀ : Hasher) (prk info okm : Bytes) :
    (∀ H : Hasher, H.BLOCK_SIZE = H₀.BLOCK_SIZE → H.OUTPUT_SIZE = H₀.OUTPUT_SIZE →
      FollowsRfc H prk info okm) ↔
    okm = [] ∨ prk.length < H₀.OUTPUT_SIZE ∨ 255 * H₀.OUTPUT_SIZE < okm.length ∨
      H₀.BLOCK_SIZE ≤ MAX_HASH_BLOCK_SIZE ∧ KeyFits H₀.BLOCK_SIZE H₀.OUTPUT_SIZE prk := by
  constructor
  · intro h
    by_contra hnot
    push Not at hnot
    obtain ⟨hsome, hprk, hlong, hfits⟩ := hnot
    have hpos : 0 < H₀.OUTPUT_SIZE := by
      by_contra hzero
      rw [Nat.eq_zero_of_not_pos hzero] at hlong
      exact hsome (List.length_eq_zero_iff.mp (by omega))
    rcases Nat.lt_or_ge MAX_HASH_BLOCK_SIZE H₀.BLOCK_SIZE with hbig | hblock
    · have hnone := Hmac.new_none (H := H₀) (prk.take H₀.OUTPUT_SIZE) hbig
      have hpanic : expand H₀ prk info okm = none := by
        have hempty : okm.length ≠ 0 := fun hzero => hsome (List.length_eq_zero_iff.mp hzero)
        rw [expand, if_neg (Nat.not_lt.mpr hprk), if_neg (Nat.not_lt.mpr hlong), if_neg hempty]
        have hround (s : ExpandState) : expandRound H₀ prk info s = none := by
          rw [expandRound, hnone]
          rfl
        have hstay (fuel : Nat) : whileLoop
            (fun s : Option ExpandState => s.elim false fun s => decide (s.offset < s.okm.length))
            (fun s => s.bind (expandRound H₀ prk info)) fuel none = none := by
          cases fuel <;> rfl
        rw [whileLoop, Option.elim_some, if_pos (decide_eq_true (Nat.pos_of_ne_zero hempty)),
          Option.bind_some, hround, hstay]
        rfl
      have hfollows := h H₀ rfl rfl
      rw [FollowsRfc, hpanic] at hfollows
      cases hfollows
    · have hunfit := hfits hblock
      have hmore : H₀.OUTPUT_SIZE < prk.length := by
        rcases Nat.lt_or_eq_of_le hprk with hlt | heq
        · exact hlt
        · exact absurd (.inl heq.symm) hunfit
      obtain ⟨H, hB, hO, hhead⟩ : ∃ H : Hasher, H.BLOCK_SIZE = H₀.BLOCK_SIZE ∧
          H.OUTPUT_SIZE = H₀.OUTPUT_SIZE ∧ ∀ message,
            (hmac H (prk.take H₀.OUTPUT_SIZE) message).head? ≠ (hmac H prk message).head? := by
        rcases Nat.lt_or_ge H₀.BLOCK_SIZE prk.length with hgt | hle
        · exact exists_hasher_long H₀.block_pos H₀.output_le hpos hmore hgt
        · exact exists_hasher_short H₀.block_pos H₀.output_le hpos hle hunfit
      rw [← hO] at hprk hlong hhead
      exact not_followsRfc_of_head hsome hprk hlong (hB ▸ hblock) hhead (h H hB hO)
  · rintro (h | h | h | ⟨hblock, hfits⟩) H hB hO
    · exact followsRfc_of_rejected (.inl h)
    · exact followsRfc_of_rejected (.inr (.inl (hO ▸ h)))
    · exact followsRfc_of_rejected (.inr (.inr (hO ▸ h)))
    · rw [← hB, ← hO] at hfits
      exact followsRfc_of_keyFits info okm (hB ▸ hblock) hfits

/-- A key of 33 octets, with a hash of the sizes of SHA-256. -/
theorem long_key_not_followed :
    ¬FollowsRfc (Hasher.ofFunction 64 32 (by decide) (by decide)
      (fun data => List.replicate 32 (data.getD 32 0)) (by simp))
      (List.replicate 32 0 ++ [1]) [] [0] := by
  apply not_followsRfc_of_head (by decide) (by decide) (by decide) (by decide)
  intro message heq
  have hcut : ((List.replicate 32 0 ++ [1] : Bytes).take 32) = List.replicate 32 0 := by decide
  change some (((List.replicate 32 0 ++ [1] : Bytes).take 32).getD 32 0 ^^^ 0x5c) =
    some (1 ^^^ 0x5c)
    at heq
  rw [hcut] at heq
  exact absurd heq (by decide)

end Stdx.Mac
