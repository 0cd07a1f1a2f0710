import Mathlib
import Stdx.Hashes.Sha2
import Stdx.Foundation.Chunks
import Stdx.Foundation.LittleEndian

/-!
# BLAKE2b

`crypto/src/blake2.rs`.  The last block is compressed with a flag, so a full buffer is
held back until more octets arrive; a key is a block of its own that waits in the same
buffer.  The compression function is a parameter.
-/

namespace Stdx.Hashes

open Stdx.Foundation

/-- `compress(h, total_len, block, last)` -/
abbrev Blake2bCompress := Words 64 → BitVec 128 → Bytes → Bool → Words 64

structure Blake2b where
  h : Words 64
  buffer : FixedBytes 128
  bufferLen : Nat
  totalLen : BitVec 128
  outlen : Nat
  keyPending : Bool
  outlen_le : outlen ≤ 64

namespace Blake2b

def IV : Words 64 :=
  ⟨[0x6A09E667F3BCC908, 0xBB67AE8584CAA73B, 0x3C6EF372FE94F82B, 0xA54FF53A5F1D36F1,
    0x510E527FADE682D1, 0x9B05688C2B3E6C1F, 0x1F83D9ABFB41BD6B, 0x5BE0CD19137E2179], rfl⟩

/-- `h[0] ^= word` -/
local instance neZero_words : NeZero 8 := ⟨by decide⟩

def xorFirst (h : Words 64) (word : BitVec 64) : Words 64 := h.set 0 (h.get 0 ^^^ word)

def initialWords (keyLen outlen : Nat) : Words 64 :=
  xorFirst IV (0x01010000 ^^^ (BitVec.ofNat 64 keyLen <<< 8) ^^^ BitVec.ofNat 64 outlen)

def keyBuffer (key : Bytes) : Option (FixedBytes 128) :=
  if key.length > 0 then (FixedBytes.zeroed 128).copyInto 0 key else some (.zeroed 128)

/-- `none` when an assertion fails. -/
def newKeyed (key : Bytes) (outlen : Nat) : Option Blake2b :=
  if h : 1 ≤ outlen ∧ outlen ≤ 64 then
    if key.length ≤ 64 then do
      let buffer ← keyBuffer key
      some {
        h := initialWords key.length outlen
        buffer := buffer
        bufferLen := if key.length > 0 then 128 else 0
        totalLen := 0
        outlen := outlen
        keyPending := decide (key.length > 0)
        outlen_le := h.2 }
    else none
  else none

def new : Blake2b where
  h := xorFirst IV (0x01010000 ^^^ 64)
  buffer := .zeroed 128
  bufferLen := 0
  totalLen := 0
  outlen := 64
  keyPending := false
  outlen_le := Nat.le_refl 64

variable (compress : Blake2bCompress)

def compressBuffer (hasher : Blake2b) (last : Bool) : Blake2b :=
  { hasher with h := compress hasher.h hasher.totalLen hasher.buffer.octets last }

def flush (hasher : Blake2b) : Blake2b :=
  { compressBuffer compress { hasher with totalLen := hasher.totalLen + 128 } false with
    bufferLen := 0 }

/-- `while data.len() > 128` -/
def blocks (h : Words 64) (totalLen : BitVec 128) (data : Bytes) :
    Words 64 × BitVec 128 × Bytes :=
  if 128 < data.length then
    blocks (compress h (totalLen + 128) (data.take 128) false) (totalLen + 128) (data.drop 128)
  else (h, totalLen, data)
termination_by data.length
decreasing_by
  rw [List.length_drop]
  omega

def absorbRest (hasher : Blake2b) (data : Bytes) : Option Blake2b := do
  let (h, totalLen, data) := blocks compress hasher.h hasher.totalLen data
  if data = [] then some { hasher with h := h, totalLen := totalLen }
  else
    let buffer ← hasher.buffer.copyInto 0 data
    some { hasher with h := h, totalLen := totalLen, buffer := buffer, bufferLen := data.length }

def releaseKey (hasher : Blake2b) : Blake2b :=
  if hasher.keyPending then { flush compress hasher with keyPending := false } else hasher

def fill (hasher : Blake2b) (data : Bytes) : Option Blake2b :=
  if hasher.bufferLen > 0 then do
    let toFill := min (128 - hasher.bufferLen) data.length
    let buffer ← hasher.buffer.copyInto hasher.bufferLen (data.take toFill)
    let hasher := { hasher with buffer := buffer, bufferLen := hasher.bufferLen + toFill }
    let data := data.drop toFill
    if hasher.bufferLen = 128 ∧ data ≠ [] then absorbRest compress (flush compress hasher) data
    else absorbRest compress hasher data
  else absorbRest compress hasher data

def update (hasher : Blake2b) (data : Bytes) : Option Blake2b :=
  if data = [] then some hasher else fill compress (releaseKey compress hasher) data

def updates (hasher : Blake2b) : List Bytes → Option Blake2b
  | [] => some hasher
  | data :: rest => do updates (← update compress hasher data) rest

/-- `for i in length..N { buffer[i] = 0; }` -/
def zeroFrom {N : Nat} (buffer : FixedBytes N) (length : Nat) : FixedBytes N :=
  ⟨buffer.octets.take length ++ List.replicate (N - length) 0, by
    have := buffer.length_eq
    simp
    omega⟩

/-- `out[i] = (h[i >> 3] >> ((i & 7) * 8)) as u8` -/
def outputOctet (h : Words 64) (i : Nat) : UInt8 :=
  UInt8.ofNat (h.toList.getD (i >>> 3) 0 >>> ((i &&& 7) * 8)).toNat

def sum (hasher : Blake2b) : Option Hash :=
  let totalLen := if hasher.keyPending then hasher.totalLen + 128
    else hasher.totalLen + BitVec.ofNat 128 hasher.bufferLen
  let buffer := zeroFrom hasher.buffer hasher.bufferLen
  let last := compressBuffer compress { hasher with totalLen := totalLen, buffer := buffer } true
  (BoundedBytes.new : Hash).append ((List.range hasher.outlen).map (outputOctet last.h))

/-! ## RFC 7693 -/

def keyBlock (key : Bytes) : Bytes :=
  if key = [] then [] else key ++ List.replicate (128 - key.length) 0

def BB : Nat := 128

/-- The blocks of section 3.3: the octets padded with zeros to whole blocks, and a block
of zeros if there are none. -/
def rfcBlock (data : Bytes) (i : Nat) : Bytes :=
  let block := blockAt BB data i
  block ++ List.replicate (BB - block.length) 0

/-- The function of section 3.3 on the key block and the message; the octets counted
with the last block are all of them. -/
def rfc7693 (key : Bytes) (outlen : Nat) (message : Bytes) : Bytes :=
  let data := keyBlock key ++ message
  let dd := max 1 ((data.length + (BB - 1)) / BB)
  let h := (List.range (dd - 1)).foldl
    (fun h i => compress h (BitVec.ofNat 128 ((i + 1) * BB)) (rfcBlock data i) false)
    (initialWords key.length outlen)
  let h := compress h (BitVec.ofNat 128 data.length) (rfcBlock data (dd - 1)) true
  (h.toList.flatMap fun word => leOctets 8 word.toNat).take outlen

/-! ## Streaming -/

def fold (start : Words 64) (whole : Bytes) : Words 64 :=
  foldBlocks 128
    (fun i h block => compress h (BitVec.ofNat 128 ((i + 1) * 128)) block false)
    (whole.length / 128) start whole

structure Holds (hasher : Blake2b) (start : Words 64) (outlen : Nat)
    (data whole tail : Bytes) : Prop where
  split : LazySplit 128 data whole tail
  bufferLen_eq : hasher.bufferLen = tail.length
  buffered : hasher.buffer.octets.take tail.length = tail
  h_eq : hasher.h = fold compress start whole
  totalLen_eq : hasher.totalLen = BitVec.ofNat 128 whole.length
  pending : hasher.keyPending = true → tail.length = 128
  outlen_eq : hasher.outlen = outlen

variable {compress}

theorem fold_block (start : Words 64) {whole block : Bytes} (hwhole : 128 ∣ whole.length)
    (hblock : block.length = 128) :
    fold compress start (whole ++ block) =
      compress (fold compress start whole) (BitVec.ofNat 128 (whole ++ block).length) block
        false := by
  obtain ⟨count, hcount⟩ := hwhole
  have hboth : (whole ++ block).length = (count + 1) * 128 := by
    rw [List.length_append, hcount, hblock]
    ring
  have hdiv : whole.length / 128 = count := by omega
  rw [fold, hboth, Nat.mul_div_cancel _ (by decide), foldBlocks_append_right block hcount,
    foldBlocks_one, List.take_of_length_le (Nat.le_of_eq hblock), fold, hdiv, Nat.add_zero]

theorem totalLen_block {whole block : Bytes} (hblock : block.length = 128) :
    BitVec.ofNat 128 whole.length + 128 = BitVec.ofNat 128 (whole ++ block).length := by
  rw [List.length_append, hblock, BitVec.ofNat_add]
  rfl

theorem blocks_spec (start : Words 64) (h : Words 64) (totalLen : BitVec 128) (data : Bytes) :
    ∀ {whole : Bytes}, 128 ∣ whole.length → h = fold compress start whole →
      totalLen = BitVec.ofNat 128 whole.length →
      ∃ front rest, LazySplit 128 data front rest ∧ blocks compress h totalLen data =
        (fold compress start (whole ++ front), BitVec.ofNat 128 (whole ++ front).length,
          rest) := by
  induction h, totalLen, data using blocks.induct compress with
  | case1 h totalLen data hlong ih =>
    intro whole hdvd hh htotal
    have hblock : (data.take 128).length = 128 := by
      rw [List.length_take]
      omega
    have hnext : 128 ∣ (whole ++ data.take 128).length := by
      rw [List.length_append, hblock]
      exact Nat.dvd_add hdvd (Nat.dvd_refl _)
    have hstep := @fold_block compress start _ _ hdvd hblock
    rw [← hh, ← totalLen_block hblock, ← htotal] at hstep
    have hcount := @totalLen_block whole _ hblock
    rw [← htotal] at hcount
    obtain ⟨front, rest, hsplit, hblocks⟩ := ih hnext hstep.symm hcount
    refine ⟨data.take 128 ++ front, rest, ?_, ?_⟩
    · have hne : rest ≠ [] := by
        intro hnil
        have hdrop := hsplit.eq
        rw [hsplit.held hnil, hnil, List.append_nil, List.drop_eq_nil_iff] at hdrop
        omega
      refine ⟨?_, ?_, hsplit.le, fun hnil => absurd hnil hne⟩
      · rw [List.append_assoc, ← hsplit.eq, List.take_append_drop]
      · rw [List.length_append, hblock]
        exact Nat.dvd_add (Nat.dvd_refl _) hsplit.dvd
    · rw [blocks, if_pos hlong, hblocks, List.append_assoc]
  | case2 h totalLen data hshort =>
    intro whole _ hh htotal
    refine ⟨[], data, ⟨rfl, Nat.dvd_zero _, by omega, fun _ => rfl⟩, ?_⟩
    rw [blocks, if_neg hshort, List.append_nil, ← hh, ← htotal]

theorem absorbRest_holds {hasher : Blake2b} {start : Words 64} {outlen : Nat}
    {whole data : Bytes} (hdvd : 128 ∣ whole.length) (hne : data ≠ [])
    (hh : hasher.h = fold compress start whole)
    (htotal : hasher.totalLen = BitVec.ofNat 128 whole.length)
    (hpending : hasher.keyPending = false) (houtlen : hasher.outlen = outlen) :
    ∃ hasher' whole' tail', absorbRest compress hasher data = some hasher' ∧
      hasher'.Holds compress start outlen (whole ++ data) whole' tail' := by
  obtain ⟨front, rest, hsplit, hblocks⟩ := blocks_spec start _ _ data hdvd hh htotal
  have hrest : rest ≠ [] := by
    intro hnil
    apply hne
    rw [hsplit.eq, hsplit.held hnil, hnil, List.append_nil]
  have hle := hsplit.le
  obtain ⟨buffer, hcopy, hbuffered⟩ := @FixedBytes.copyInto_take 128 hasher.buffer 0 rest
    (by omega)
  have habsorb : absorbRest compress hasher data = some { hasher with
      h := fold compress start (whole ++ front)
      totalLen := BitVec.ofNat 128 (whole ++ front).length
      buffer := buffer
      bufferLen := rest.length } := by
    simp only [absorbRest, hblocks, if_neg hrest, hcopy, Option.bind_eq_bind,
      Option.bind_some]
  refine ⟨_, whole ++ front, rest, habsorb, ?_, rfl, ?_, rfl, rfl, ?_, houtlen⟩
  · refine ⟨by rw [List.append_assoc, ← hsplit.eq], ?_, hle, fun hnil => absurd hnil hrest⟩
    rw [List.length_append]
    exact Nat.dvd_add hdvd hsplit.dvd
  · simpa using hbuffered
  · intro h
    rw [show hasher.keyPending = true from h] at hpending
    exact absurd hpending (by decide)

theorem flush_spec {hasher : Blake2b} {start : Words 64} {whole : Bytes}
    (hdvd : 128 ∣ whole.length) (hh : hasher.h = fold compress start whole)
    (htotal : hasher.totalLen = BitVec.ofNat 128 whole.length) :
    (flush compress hasher).h = fold compress start (whole ++ hasher.buffer.octets) ∧
      (flush compress hasher).totalLen =
        BitVec.ofNat 128 (whole ++ hasher.buffer.octets).length ∧
      128 ∣ (whole ++ hasher.buffer.octets).length := by
  have hblock := hasher.buffer.length_eq
  have hcount := @totalLen_block whole _ hblock
  refine ⟨?_, ?_, ?_⟩
  · rw [fold_block start hdvd hblock, ← hh, ← hcount, ← htotal]
    rfl
  · rw [← hcount, ← htotal]
    rfl
  · rw [List.length_append, hblock]
    exact Nat.dvd_add hdvd (Nat.dvd_refl _)

theorem absorbRest_nil (hasher : Blake2b) : absorbRest compress hasher [] = some hasher := by
  have hblocks : blocks compress hasher.h hasher.totalLen [] =
      (hasher.h, hasher.totalLen, []) := by
    rw [blocks, if_neg (by simp)]
  simp only [absorbRest, hblocks, if_true]

theorem fill_holds {hasher : Blake2b} {start : Words 64} {outlen : Nat}
    {message whole tail data : Bytes}
    (h : hasher.Holds compress start outlen message whole tail)
    (hpending : hasher.keyPending = false) (hne : data ≠ []) :
    ∃ hasher' whole' tail', fill compress hasher data = some hasher' ∧
      hasher'.Holds compress start outlen (message ++ data) whole' tail' := by
  have hlen := h.bufferLen_eq
  have hle := h.split.le
  by_cases hbuffer : hasher.bufferLen > 0
  · obtain ⟨toFill, hto⟩ : ∃ toFill, min (128 - hasher.bufferLen) data.length = toFill :=
      ⟨_, rfl⟩
    have hfilled : (data.take toFill).length = toFill := by
      rw [List.length_take]
      omega
    obtain ⟨buffer, hcopy, hbuffered⟩ := @FixedBytes.copyInto_take 128 hasher.buffer
      hasher.bufferLen (data.take toFill) (by omega)
    rw [hfilled, hlen, h.buffered] at hbuffered
    simp only [fill, hbuffer, if_true, hto, hcopy, Option.bind_eq_bind, Option.bind_some]
    split
    · next hfull =>
      -- The buffer is full and more octets follow, so it is not the last block.
      obtain ⟨hfull, hrest⟩ := hfull
      have hblock : buffer.octets = tail ++ data.take toFill := by
        rw [← hbuffered, List.take_of_length_le (by rw [buffer.length_eq]; omega)]
      obtain ⟨hh, htotal, hdvd⟩ := @flush_spec compress
        { hasher with buffer := buffer, bufferLen := hasher.bufferLen + toFill } start whole
        h.split.dvd h.h_eq h.totalLen_eq
      have hmessage : message ++ data = (whole ++ buffer.octets) ++ data.drop toFill := by
        rw [h.split.eq, hblock]
        simp [List.append_assoc, List.take_append_drop]
      rw [hmessage]
      exact absorbRest_holds hdvd hrest hh htotal hpending h.outlen_eq
    · next hpart =>
      have hdrop : data.drop toFill = [] := by
        by_contra hrest
        have hlong := List.length_pos_iff.mpr hrest
        rw [List.length_drop] at hlong
        exact hpart ⟨by omega, hrest⟩
      have htake : data.take toFill = data :=
        List.take_of_length_le (List.drop_eq_nil_iff.mp hdrop)
      rw [htake] at hfilled hbuffered
      rw [hdrop, absorbRest_nil]
      refine ⟨_, whole, tail ++ data, rfl, h.split.grow (by omega), ?_, ?_, h.h_eq,
        h.totalLen_eq, ?_, h.outlen_eq⟩
      · rw [List.length_append, hfilled, ← hlen]
      · rw [List.length_append, hfilled]
        exact hbuffered
      · intro hkey
        rw [show hasher.keyPending = true from hkey] at hpending
        exact absurd hpending (by decide)
  · have hzero : tail = [] := List.length_eq_zero_iff.mp (by omega)
    have hwhole : message = whole := by
      rw [h.split.eq, hzero, List.append_nil]
    simp only [fill, hbuffer, if_false]
    rw [hwhole]
    exact absorbRest_holds h.split.dvd hne h.h_eq h.totalLen_eq hpending h.outlen_eq

theorem update_holds {hasher : Blake2b} {start : Words 64} {outlen : Nat}
    {message whole tail : Bytes}
    (h : hasher.Holds compress start outlen message whole tail) (data : Bytes) :
    ∃ hasher' whole' tail', update compress hasher data = some hasher' ∧
      hasher'.Holds compress start outlen (message ++ data) whole' tail' := by
  by_cases hnil : data = []
  · refine ⟨hasher, whole, tail, by rw [update, if_pos hnil], ?_⟩
    rwa [hnil, List.append_nil]
  rw [update, if_neg hnil, releaseKey]
  split
  · next hkey =>
    -- The pending key fills the buffer, and the first octets release it.
    have hlen := h.pending hkey
    have hblock : hasher.buffer.octets = tail := by
      have hbuffered := h.buffered
      rwa [hlen, List.take_of_length_le (Nat.le_of_eq hasher.buffer.length_eq)] at hbuffered
    obtain ⟨hh, htotal, hdvd⟩ := @flush_spec compress hasher start whole h.split.dvd h.h_eq
      h.totalLen_eq
    rw [hblock, ← h.split.eq] at hh htotal hdvd
    have hempty : ¬({ flush compress hasher with keyPending := false } :
        Blake2b).bufferLen > 0 := Nat.lt_irrefl 0
    rw [fill, if_neg hempty]
    exact absorbRest_holds hdvd hnil hh htotal rfl h.outlen_eq
  · next hkey => exact fill_holds h (by simpa using hkey) hnil

theorem updates_holds {start : Words 64} {outlen : Nat} (parts : List Bytes) :
    ∀ {hasher : Blake2b} {message whole tail : Bytes},
      hasher.Holds compress start outlen message whole tail →
      ∃ hasher' whole' tail', updates compress hasher parts = some hasher' ∧
        hasher'.Holds compress start outlen (message ++ parts.flatten) whole' tail' := by
  induction parts with
  | nil =>
    intro hasher message whole tail h
    exact ⟨hasher, whole, tail, rfl, by simpa using h⟩
  | cons data rest ih =>
    intro hasher message whole tail h
    obtain ⟨next, whole', tail', hupdate, hnext⟩ := update_holds h data
    obtain ⟨last, whole'', tail'', hrest, hlast⟩ := ih hnext
    refine ⟨last, whole'', tail'', ?_, ?_⟩
    · rw [updates, hupdate]
      exact hrest
    · rwa [List.flatten_cons, ← List.append_assoc]

/-! ## The last block -/

theorem keyBlock_length {key : Bytes} (h : key.length ≤ 64) :
    (keyBlock key).length = if key.length > 0 then 128 else 0 := by
  by_cases hnil : key = []
  · simp [keyBlock, hnil]
  · have hpos := List.length_pos_iff.mpr hnil
    rw [keyBlock, if_neg hnil, if_pos hpos, List.length_append, List.length_replicate]
    omega

theorem keyBuffer_eq {key : Bytes} (h : key.length ≤ 64) :
    ∃ buffer, keyBuffer key = some buffer ∧
      buffer.octets.take (keyBlock key).length = keyBlock key := by
  by_cases hnil : key = []
  · refine ⟨.zeroed 128, ?_, ?_⟩
    · rw [keyBuffer, if_neg (by simp [hnil])]
    · simp [keyBlock, hnil]
  · obtain ⟨buffer, hcopy, hoctets⟩ := @FixedBytes.copyInto_zeros 128 (.zeroed 128) [] 128 rfl 0
      key (by omega)
    refine ⟨buffer, ?_, ?_⟩
    · rw [keyBuffer, if_pos (List.length_pos_iff.mpr hnil)]
      exact hcopy
    · have hblock : buffer.octets = keyBlock key := by
        rw [hoctets, keyBlock, if_neg hnil]
        simp
      rw [← hblock, List.take_length]

theorem newKeyed_holds {key : Bytes} {outlen : Nat} (hkey : key.length ≤ 64)
    (houtlen : 1 ≤ outlen ∧ outlen ≤ 64) :
    ∃ hasher, newKeyed key outlen = some hasher ∧
      hasher.Holds compress (initialWords key.length outlen) outlen (keyBlock key) []
        (keyBlock key) := by
  have hlength := keyBlock_length hkey
  have hsplit : LazySplit 128 (keyBlock key) [] (keyBlock key) := by
    refine ⟨rfl, Nat.dvd_zero _, ?_, fun _ => rfl⟩
    rw [hlength]
    split <;> omega
  obtain ⟨buffer, hbuffer, hbuffered⟩ := keyBuffer_eq hkey
  have hnew : newKeyed key outlen = some {
      h := initialWords key.length outlen
      buffer := buffer
      bufferLen := if key.length > 0 then 128 else 0
      totalLen := 0
      outlen := outlen
      keyPending := decide (key.length > 0)
      outlen_le := houtlen.2 } := by
    simp only [newKeyed, dif_pos houtlen, if_pos hkey, hbuffer, Option.bind_eq_bind,
      Option.bind_some]
  refine ⟨_, hnew, hsplit, hlength.symm, hbuffered, rfl, rfl, ?_, rfl⟩
  intro hpending
  rw [hlength, if_pos (by simpa using hpending)]

/-! ## The digest -/

theorem getD_leOctets {length i : Nat} (h : i < length) (n : Nat) :
    (leOctets length n).getD i 0 = UInt8.ofNat (n / 256 ^ i) := by
  induction length generalizing i n with
  | zero => omega
  | succ length ih =>
    cases i with
    | zero => simp [leOctets]
    | succ i =>
      rw [leOctets, List.getD_cons_succ, ih (by omega), Nat.div_div_eq_div_mul, pow_succ']

theorem output_eq (h : Words 64) {outlen : Nat} (houtlen : outlen ≤ 64) :
    (List.range outlen).map (outputOctet h) =
      (h.toList.flatMap fun word => leOctets 8 word.toNat).take outlen := by
  have hwords : h.toList = (List.range 8).map fun i => h.toList.getD i 0 := by
    refine List.ext_getElem (by simp) fun i hi _ => ?_
    rw [List.getElem_map, List.getElem_range, List.getD_eq_getElem _ _ hi]
  have hchunks : (h.toList.flatMap fun word => leOctets 8 word.toNat) =
      ofChunks 8 fun i => leOctets 8 (h.toList.getD i 0).toNat := by
    conv_lhs => rw [hwords]
    rw [ofChunks, List.flatMap_map]
  have hlength : (ofChunks 8 fun i => leOctets 8 (h.toList.getD i 0).toNat).length = 64 :=
    length_ofChunks fun i _ => leOctets_length 8 _
  rw [hchunks]
  refine ext_getD (by rw [List.length_map, List.length_range, List.length_take, hlength]; omega) 0
    fun i hi => ?_
  rw [List.length_map, List.length_range] at hi
  rw [getD_map_range _ hi, List.getD_eq_getElem?_getD, List.getElem?_take_of_lt hi,
    ← List.getD_eq_getElem?_getD]
  have hword := @getD_ofChunks _ 8 8 (fun i => leOctets 8 (h.toList.getD i 0).toNat)
    (fun i _ => leOctets_length 8 _) (i / 8) (i % 8) (by omega) (Nat.mod_lt _ (by decide)) 0
  rw [Nat.div_add_mod] at hword
  rw [hword, getD_leOctets (Nat.mod_lt _ (by decide)), outputOctet, Nat.shiftRight_eq_div_pow,
    BitVec.toNat_ushiftRight, Nat.shiftRight_eq_div_pow,
    Nat.and_two_pow_sub_one_eq_mod i 3]
  have hpow : 2 ^ (i % 8 * 8) = 256 ^ (i % 8) := by
    rw [Nat.mul_comm, pow_mul]
    norm_num
  show UInt8.ofNat ((h.toList.getD (i / 8) 0).toNat / 2 ^ (i % 8 * 8)) = _
  rw [hpow]

theorem rfc7693_split {key : Bytes} {outlen : Nat} {message whole tail : Bytes}
    (h : LazySplit 128 (keyBlock key ++ message) whole tail) :
    rfc7693 compress key outlen message =
      ((compress (fold compress (initialWords key.length outlen) whole)
        (BitVec.ofNat 128 (keyBlock key ++ message).length)
        (tail ++ List.replicate (128 - tail.length) 0) true).toList.flatMap
          fun word => leOctets 8 word.toNat).take outlen := by
  obtain ⟨count, hcount⟩ := h.dvd
  have hle := h.le
  have hdata : (keyBlock key ++ message).length = 128 * count + tail.length := by
    rw [h.eq, List.length_append, hcount]
  have hheld : tail.length = 0 → count = 0 := by
    intro hzero
    have hnil := h.held (List.length_eq_zero_iff.mp hzero)
    rw [hnil, List.length_nil] at hcount
    omega
  have hdd : max 1 (((keyBlock key ++ message).length + (BB - 1)) / BB) - 1 = count := by
    rw [hdata, BB]
    omega
  have hfront : ∀ i, i < count → rfcBlock (keyBlock key ++ message) i = blockAt 128 whole i := by
    intro i hi
    have hblock : blockAt 128 (keyBlock key ++ message) i = blockAt 128 whole i := by
      rw [h.eq]
      exact blockAt_append_left tail (by omega)
    rw [rfcBlock, BB, hblock, blockAt_length (by omega), Nat.sub_self, List.replicate_zero,
      List.append_nil]
  have hlast : rfcBlock (keyBlock key ++ message) count =
      tail ++ List.replicate (128 - tail.length) 0 := by
    have hblock : blockAt 128 (keyBlock key ++ message) count = tail := by
      rw [h.eq, ← Nat.add_zero count, blockAt_append_right tail hcount, blockAt, Nat.mul_zero,
        List.drop_zero, List.take_of_length_le hle]
    rw [rfcBlock, BB, hblock]
  have hfold : (List.range count).foldl
      (fun h i => compress h (BitVec.ofNat 128 ((i + 1) * BB))
        (rfcBlock (keyBlock key ++ message) i) false) (initialWords key.length outlen) =
      fold compress (initialWords key.length outlen) whole := by
    have hdiv : whole.length / 128 = count := by omega
    rw [fold, hdiv, foldBlocks]
    refine List.foldl_ext _ _ _ fun s i hi => ?_
    rw [hfront i (List.mem_range.mp hi)]
    rfl
  simp only [rfc7693, hdd, hfold, hlast]

theorem sum_holds {hasher : Blake2b} {key : Bytes} {outlen : Nat} {message whole tail : Bytes}
    (h : hasher.Holds compress (initialWords key.length outlen) outlen
      (keyBlock key ++ message) whole tail) :
    ∃ hash, sum compress hasher = some hash ∧
      hash.octets = rfc7693 compress key outlen message := by
  have hlen := h.bufferLen_eq
  have htotal : (if hasher.keyPending then hasher.totalLen + 128
      else hasher.totalLen + BitVec.ofNat 128 hasher.bufferLen) =
      BitVec.ofNat 128 (keyBlock key ++ message).length := by
    have hadd : hasher.totalLen + BitVec.ofNat 128 tail.length =
        BitVec.ofNat 128 (keyBlock key ++ message).length := by
      rw [h.totalLen_eq, ← BitVec.ofNat_add, ← List.length_append, ← h.split.eq]
    split
    · next hkey =>
      rw [h.pending hkey] at hadd
      exact hadd
    · rw [hlen]
      exact hadd
  have hbuffer : (zeroFrom hasher.buffer hasher.bufferLen).octets =
      tail ++ List.replicate (128 - tail.length) 0 := by
    show hasher.buffer.octets.take hasher.bufferLen ++
      List.replicate (128 - hasher.bufferLen) 0 = _
    rw [hlen, h.buffered]
  obtain ⟨last, hlast⟩ : ∃ last, compress hasher.h
      (BitVec.ofNat 128 (keyBlock key ++ message).length)
      (tail ++ List.replicate (128 - tail.length) 0) true = last := ⟨_, rfl⟩
  have houtlen := hasher.outlen_le
  have hfits : (BoundedBytes.new : Hash).octets.length +
      ((List.range hasher.outlen).map (outputOctet last)).length ≤ 64 := by
    simpa [BoundedBytes.new] using houtlen
  refine ⟨⟨(BoundedBytes.new : Hash).octets ++ (List.range hasher.outlen).map (outputOctet last), by
    rw [List.length_append]; exact hfits⟩, ?_, ?_⟩
  · simp only [sum, compressBuffer, htotal, hbuffer, hlast]
    exact dif_pos hfits
  · show [] ++ (List.range hasher.outlen).map (outputOctet last) = _
    rw [List.nil_append, output_eq last houtlen, h.outlen_eq, rfc7693_split h.split,
      ← h.h_eq, hlast]

theorem new_eq : newKeyed [] 64 = some new := rfl

end Blake2b

/-! ## All three hashers -/

/-- A message in pieces is hashed as the standards hash the whole: the SHA-2 digests are
the fold over the padded message, whose length field is exact below the limit of the
standard, and the BLAKE2b digest is that of the key block and the message. -/
theorem hashers_stream :
    (∀ (backend : Backend SHA256) (parts : List Bytes),
      (∃ hash, ((Sha256.new backend).updates parts).bind Sha2.sum = some hash ∧
        hash.octets = fipsDigest SHA256 (backend.compress backend.hasShaExt) Sha256.IV
          parts.flatten) ∧
      64 ∣ (fipsPad SHA256 parts.flatten).length ∧
      (parts.flatten.length < 2 ^ 61 →
        beValue ((fipsPad SHA256 parts.flatten).drop
          ((fipsPad SHA256 parts.flatten).length - 8)) = 8 * parts.flatten.length)) ∧
    (∀ (backend : Backend SHA512) (parts : List Bytes),
      (∃ hash, ((Sha512.new backend).updates parts).bind Sha2.sum = some hash ∧
        hash.octets = fipsDigest SHA512 (backend.compress backend.hasShaExt) Sha512.IV
          parts.flatten) ∧
      128 ∣ (fipsPad SHA512 parts.flatten).length ∧
      (parts.flatten.length < 2 ^ 125 →
        beValue ((fipsPad SHA512 parts.flatten).drop
          ((fipsPad SHA512 parts.flatten).length - 16)) = 8 * parts.flatten.length)) ∧
    (∀ (compress : Blake2bCompress) (key : Bytes) (outlen : Nat) (parts : List Bytes),
      key.length ≤ 64 → 1 ≤ outlen ∧ outlen ≤ 64 →
        ∃ hash, ((Blake2b.newKeyed key outlen).bind fun hasher =>
          (Blake2b.updates compress hasher parts).bind (Blake2b.sum compress)) = some hash ∧
          hash.octets = Blake2b.rfc7693 compress key outlen parts.flatten) := by
  refine ⟨fun backend parts => ⟨Sha2.digest_streams Sha256.IV backend parts,
    fipsPad_length_dvd SHA256 _, fun h => ?_⟩, fun backend parts =>
    ⟨Sha2.digest_streams Sha512.IV backend parts, fipsPad_length_dvd SHA512 _, fun h => ?_⟩,
    fun compress key outlen parts hkey houtlen => ?_⟩
  · exact beValue_lengthField SHA256 (show 8 * parts.flatten.length < 256 ^ 8 by omega)
  · exact beValue_lengthField SHA512 (show 8 * parts.flatten.length < 256 ^ 16 by omega)
  · obtain ⟨hasher, hnew, hstart⟩ := Blake2b.newKeyed_holds hkey houtlen
    obtain ⟨last, whole, tail, hupdates, hlast⟩ := Blake2b.updates_holds parts hstart
    obtain ⟨hash, hsum, hoctets⟩ := Blake2b.sum_holds hlast
    exact ⟨hash, by rw [hnew, Option.bind_some, hupdates]; exact hsum, hoctets⟩

/-- A key alone, hashed to one octet. -/
theorem hashers_stream_key :
    ∃ hash, ((Blake2b.newKeyed [1] 1).bind fun hasher =>
      (Blake2b.updates (fun h _ _ _ => h) hasher [[], [2]]).bind
        (Blake2b.sum fun h _ _ _ => h)) = some hash ∧
      hash.octets = Blake2b.rfc7693 (fun h _ _ _ => h) [1] 1 [2] :=
  hashers_stream.2.2 (fun h _ _ _ => h) [1] 1 [[], [2]] (by decide) (by decide)

end Stdx.Hashes
