import Stdx.Hashes.Blake3

/-!
# BLAKE3 computes the tree

The tree of the specification over the octets of a message, and the proof that the
one-shot function and the incremental hasher compute it for every compression function,
every mode and every degree of parallelism.
-/

namespace Stdx.Hashes.Blake3

open Stdx.Foundation

section

variable (platform : Platform) (key : Words 32) (flags : UInt8)

/-! ## The specification -/

def chunkFold (counter : BitVec 64) (whole : Bytes) : Words 32 :=
  foldBlocks BLOCK_LEN (fun i cv block => platform.compress cv block BLOCK_LEN counter
    (flags ||| if i = 0 then CHUNK_START else 0)) (whole.length / BLOCK_LEN) key whole

def chunkOutput (counter : BitVec 64) (chunk : Bytes) : Output :=
  let count := (chunk.length - 1) / BLOCK_LEN
  let last := chunk.drop (BLOCK_LEN * count)
  ⟨chunkFold platform key flags counter (chunk.take (BLOCK_LEN * count)),
    last ++ List.replicate (BLOCK_LEN - last.length) 0, last.length, counter,
    flags ||| (if count = 0 then CHUNK_START else 0) ||| CHUNK_END⟩

def chunkCount (length : Nat) : Nat := (length + (CHUNK_LEN - 1)) / CHUNK_LEN

theorem chunkCount_eq (length : Nat) : chunkCount length = (length + 1023) / 1024 := rfl

/-- The octets of the left subtree: the largest power of two of chunks below the whole. -/
def leftLen (length : Nat) : Nat := CHUNK_LEN * splitPoint (chunkCount length)

theorem leftLen_lt {length : Nat} (h : CHUNK_LEN < length) :
    0 < leftLen length ∧ leftLen length < length := by
  have hcount := chunkCount_eq length
  simp only [CHUNK_LEN] at h
  obtain ⟨hpos, hlt⟩ := splitPoint_lt (n := chunkCount length) (by omega)
  simp only [leftLen, CHUNK_LEN]
  omega

def treeOutput (counter : BitVec 64) (message : Bytes) : Output :=
  if _h : message.length ≤ CHUNK_LEN then chunkOutput platform key flags counter message
  else
    parentNodeOutput key flags
      ((treeOutput counter (message.take (leftLen message.length))).chainingValue platform)
      ((treeOutput (counter + BitVec.ofNat 64 (leftLen message.length / CHUNK_LEN))
        (message.drop (leftLen message.length))).chainingValue platform)
termination_by message.length
decreasing_by
  · have := @leftLen_lt message.length (by omega)
    rw [List.length_take]
    omega
  · have := @leftLen_lt message.length (by omega)
    rw [List.length_drop]
    omega

def treeHash (message : Bytes) : Cv := (treeOutput platform key flags 0 message).rootHash platform

end

/-! ## A chunk in pieces -/

namespace ChunkState

variable {platform : Platform} {key : Words 32} {flags : UInt8} {counter : BitVec 64}

structure Holds (platform : Platform) (state : ChunkState) (key : Words 32) (flags : UInt8)
    (counter : BitVec 64) (chunk whole tail : Bytes) : Prop where
  split : LazySplit 64 chunk whole tail
  bufLen_eq : state.bufLen = tail.length
  buf_eq : state.buf.octets = tail ++ List.replicate (64 - tail.length) 0
  cv_eq : state.cv = chunkFold platform key flags counter whole
  blocks_eq : state.blocksCompressed = whole.length / 64
  counter_eq : state.chunkCounter = counter
  flags_eq : state.flags = flags

theorem holds_new : Holds platform (new key counter flags) key flags counter [] [] [] :=
  ⟨LazySplit.nil 64, rfl, rfl, rfl, rfl, rfl, rfl⟩

theorem count_eq {state : ChunkState} {chunk whole tail : Bytes}
    (h : Holds platform state key flags counter chunk whole tail) :
    state.count = chunk.length := by
  have hdvd := h.split.dvd
  have := h.split.eq
  rw [count, h.blocks_eq, h.bufLen_eq, h.split.eq, List.length_append, BLOCK_LEN,
    Nat.mul_div_cancel' hdvd]

theorem compressBlock_holds {state : ChunkState} {whole block : Bytes}
    (hdvd : 64 ∣ whole.length) (hblock : block.length = 64)
    (hcv : state.cv = chunkFold platform key flags counter whole)
    (hblocks : state.blocksCompressed = whole.length / 64)
    (hcounter : state.chunkCounter = counter) (hflags : state.flags = flags) :
    (compressBlock platform state block).cv =
        chunkFold platform key flags counter (whole ++ block) ∧
      (compressBlock platform state block).blocksCompressed = (whole ++ block).length / 64 := by
  obtain ⟨count, hcount⟩ := hdvd
  have hwhole : whole.length / 64 = count := by omega
  have hboth : (whole ++ block).length / 64 = count + 1 := by
    rw [List.length_append]
    omega
  refine ⟨?_, ?_⟩
  · rw [chunkFold, BLOCK_LEN, hboth, foldBlocks_append_right block hcount, foldBlocks_one,
      List.take_of_length_le (Nat.le_of_eq hblock)]
    rw [chunkFold, BLOCK_LEN, hwhole] at hcv
    simp only [compressBlock, startFlag, hcv, hcounter, hflags, hblocks, hwhole, BLOCK_LEN,
      Nat.add_zero]
  · show state.blocksCompressed + 1 = _
    rw [hblocks, hwhole, hboth]

theorem fillBuf_eq {state : ChunkState} {tail : Bytes} (hle : tail.length ≤ 64)
    (hlen : state.bufLen = tail.length)
    (hbuf : state.buf.octets = tail ++ List.replicate (64 - tail.length) 0) (input : Bytes) :
    ∃ buf, fillBuf state input = some ({ state with
        buf := buf
        bufLen := (tail ++ input.take (64 - tail.length)).length },
        input.drop (64 - tail.length)) ∧
      buf.octets = tail ++ input.take (64 - tail.length) ++
        List.replicate (64 - (tail ++ input.take (64 - tail.length)).length) 0 := by
  have hlength : (input.take (min (64 - tail.length) input.length)).length =
      min (64 - tail.length) input.length := by
    rw [List.length_take]
    omega
  have htake : input.take (min (64 - tail.length) input.length) =
      input.take (64 - tail.length) := by
    rcases Nat.le_total (64 - tail.length) input.length with hlt | hge
    · rw [Nat.min_eq_left hlt]
    · rw [Nat.min_eq_right hge, List.take_length, List.take_of_length_le hge]
  have hdrop : input.drop (min (64 - tail.length) input.length) =
      input.drop (64 - tail.length) := by
    rcases Nat.le_total (64 - tail.length) input.length with hlt | hge
    · rw [Nat.min_eq_left hlt]
    · rw [Nat.min_eq_right hge, List.drop_length, List.drop_of_length_le hge]
  rw [htake] at hlength
  obtain ⟨buf, hcopy, hoctets⟩ := @FixedBytes.copyInto_zeros 64 state.buf tail
    (64 - tail.length) hbuf 0 (input.take (64 - tail.length)) (by omega)
  simp only [Nat.add_zero, List.replicate_zero, List.append_nil, Nat.zero_add] at hcopy hoctets
  refine ⟨buf, ?_, ?_⟩
  · simp only [fillBuf, BLOCK_LEN, hlen, htake, hdrop, hcopy, Option.bind_eq_bind,
      Option.bind_some, List.length_append, hlength]
  · rw [hoctets, List.length_append, Nat.sub_sub]

theorem blocks_spec (input : Bytes) :
    ∀ {state : ChunkState} {whole : Bytes}, 64 ∣ whole.length →
      state.cv = chunkFold platform key flags counter whole →
      state.blocksCompressed = whole.length / 64 → state.chunkCounter = counter →
      state.flags = flags →
      ∃ state' front rest, blocks platform state input = (state', rest) ∧
        LazySplit 64 input front rest ∧
        state'.cv = chunkFold platform key flags counter (whole ++ front) ∧
        state'.blocksCompressed = (whole ++ front).length / 64 ∧
        state'.chunkCounter = counter ∧ state'.flags = flags ∧
        state'.buf = state.buf ∧ state'.bufLen = state.bufLen := by
  induction hn : input.length using Nat.strong_induction_on generalizing input with
  | _ n ih =>
    intro state whole hdvd hcv hblocks hcounter hflags
    by_cases hlong : 64 < input.length
    · have hblock : (input.take 64).length = 64 := by
        rw [List.length_take]
        omega
      obtain ⟨hcv', hblocks'⟩ :=
        compressBlock_holds hdvd hblock hcv hblocks hcounter hflags
      obtain ⟨state', front, rest, hloop, hsplit, hcv'', hblocks'', hcounter', hflags', hbuf,
        hlen⟩ := ih (input.drop 64).length (by rw [List.length_drop]; omega) (input.drop 64)
        rfl (by rw [List.length_append, hblock]; exact Nat.dvd_add hdvd (Nat.dvd_refl 64))
        hcv' hblocks' hcounter hflags
      have hne : rest ≠ [] := by
        intro hnil
        have hdrop := hsplit.eq
        rw [hsplit.held hnil, hnil, List.append_nil, List.drop_eq_nil_iff] at hdrop
        omega
      refine ⟨state', input.take 64 ++ front, rest, ?_, ⟨?_, ?_, hsplit.le,
        fun hnil => absurd hnil hne⟩, ?_, ?_, hcounter', hflags', hbuf, hlen⟩
      · rw [blocks, BLOCK_LEN, if_pos hlong]
        exact hloop
      · rw [List.append_assoc, ← hsplit.eq, List.take_append_drop]
      · rw [List.length_append, hblock]
        exact Nat.dvd_add (Nat.dvd_refl 64) hsplit.dvd
      · rw [hcv'', List.append_assoc]
      · rw [hblocks'', List.append_assoc]
    · refine ⟨state, [], input, ?_, ⟨rfl, Nat.dvd_zero _, by omega, fun _ => rfl⟩, ?_, ?_,
        hcounter, hflags, rfl, rfl⟩
      · rw [blocks, BLOCK_LEN, if_neg hlong]
      · rw [hcv, List.append_nil]
      · rw [hblocks, List.append_nil]

theorem absorbRest_holds {state : ChunkState} {whole input : Bytes} (hdvd : 64 ∣ whole.length)
    (hne : input ≠ []) (hcv : state.cv = chunkFold platform key flags counter whole)
    (hblocks : state.blocksCompressed = whole.length / 64)
    (hcounter : state.chunkCounter = counter) (hflags : state.flags = flags)
    (hlen : state.bufLen = 0) (hbuf : state.buf = .zeroed 64) :
    ∃ state' whole' tail', absorbRest platform state input = some state' ∧
      Holds platform state' key flags counter (whole ++ input) whole' tail' := by
  obtain ⟨next, front, rest, hloop, hsplit, hcv', hblocks', hcounter', hflags', hbuf', hlen'⟩ :=
    blocks_spec input hdvd hcv hblocks hcounter hflags
  have hle := hsplit.le
  have hrest : rest ≠ [] := by
    intro hnil
    apply hne
    rw [hsplit.eq, hsplit.held hnil, hnil, List.append_nil]
  obtain ⟨buf, hfill, hoctets⟩ := @fillBuf_eq next [] (Nat.zero_le 64) (by rw [hlen', hlen]; rfl)
    (by rw [hbuf', hbuf]; rfl) rest
  have hall : rest.take (64 - ([] : Bytes).length) = rest := List.take_of_length_le hle
  rw [hall, List.nil_append] at hfill hoctets
  have habsorb : absorbRest platform state input =
      some { next with buf := buf, bufLen := rest.length } := by
    simp only [absorbRest, hloop, hfill, Option.map_some]
  refine ⟨_, whole ++ front, rest, habsorb, ⟨?_, ?_, hle, fun hnil => absurd hnil hrest⟩, rfl,
    hoctets, hcv', hblocks', hcounter', hflags'⟩
  · rw [List.append_assoc, ← hsplit.eq]
  · rw [List.length_append]
    exact Nat.dvd_add hdvd hsplit.dvd

theorem absorbRest_nil {state : ChunkState} {tail : Bytes} (hle : tail.length ≤ 64)
    (hlen : state.bufLen = tail.length)
    (hbuf : state.buf.octets = tail ++ List.replicate (64 - tail.length) 0) :
    absorbRest platform state [] = some state := by
  obtain ⟨buf, hfill, hoctets⟩ := fillBuf_eq hle hlen hbuf []
  rw [List.take_nil, List.append_nil] at hfill hoctets
  have hsame : buf = state.buf := FixedBytes.ext (by rw [hoctets, hbuf])
  have hblocks : blocks platform state [] = (state, []) := by
    rw [blocks, if_neg (by simp)]
  simp only [absorbRest, hblocks, hfill, Option.map_some, hsame, ← hlen]

theorem update_holds {state : ChunkState} {chunk whole tail : Bytes}
    (h : Holds platform state key flags counter chunk whole tail) (input : Bytes) :
    ∃ state' whole' tail', update platform state input = some state' ∧
      Holds platform state' key flags counter (chunk ++ input) whole' tail' := by
  have hle := h.split.le
  have hlen := h.bufLen_eq
  by_cases hnil : input = []
  · -- Nothing changes.
    have hfinish : finishBlock platform state [] = some (state, []) := by
      rw [finishBlock]
      split
      · obtain ⟨buf, hfill, hoctets⟩ := fillBuf_eq hle hlen h.buf_eq []
        rw [List.take_nil, List.append_nil, List.drop_nil] at hfill
        rw [List.take_nil, List.append_nil] at hoctets
        have hsame : buf = state.buf := FixedBytes.ext (by rw [hoctets, h.buf_eq])
        simp only [hfill, Option.bind_eq_bind, Option.bind_some, if_true, hsame, ← hlen]
      · rfl
    refine ⟨state, whole, tail, ?_, ?_⟩
    · rw [hnil, update, hfinish, Option.bind_eq_bind, Option.bind_some]
      exact absorbRest_nil hle hlen h.buf_eq
    · rwa [hnil, List.append_nil]
  by_cases hbuffer : state.bufLen > 0
  · obtain ⟨buf, hfill, hoctets⟩ := fillBuf_eq hle hlen h.buf_eq input
    by_cases hrest : input.drop (64 - tail.length) = []
    · have hall : input.take (64 - tail.length) = input :=
        List.take_of_length_le (List.drop_eq_nil_iff.mp hrest)
      have hshort := List.drop_eq_nil_iff.mp hrest
      rw [hall, hrest] at hfill
      rw [hall] at hoctets
      have hsplit := h.split.grow (by omega : tail.length + input.length ≤ 64)
      have hfinish : finishBlock platform state input = some ({ state with
          buf := buf, bufLen := (tail ++ input).length }, []) := by
        simp only [finishBlock, if_pos hbuffer, hfill, Option.bind_eq_bind, Option.bind_some,
          if_true]
      refine ⟨{ state with buf := buf, bufLen := (tail ++ input).length }, whole, tail ++ input,
        ?_, hsplit, rfl, hoctets, h.cv_eq, h.blocks_eq, h.counter_eq, h.flags_eq⟩
      rw [update, hfinish, Option.bind_eq_bind, Option.bind_some]
      exact absorbRest_nil hsplit.le rfl hoctets
    · -- More input follows, so the buffered block is not the last one.
      have hlong : 64 - tail.length < input.length := by
        rw [List.drop_eq_nil_iff] at hrest
        omega
      have hblock : (tail ++ input.take (64 - tail.length)).length = 64 := by
        rw [List.length_append, List.length_take]
        omega
      have hfull : buf.octets = tail ++ input.take (64 - tail.length) := by
        rw [hoctets, hblock, Nat.sub_self, List.replicate_zero, List.append_nil]
      have hfinish : finishBlock platform state input = some (flush platform { state with
          buf := buf
          bufLen := (tail ++ input.take (64 - tail.length)).length },
          input.drop (64 - tail.length)) := by
        simp only [finishBlock, if_pos hbuffer, hfill, Option.bind_eq_bind, Option.bind_some,
          if_neg hrest]
      obtain ⟨hcv, hblocks⟩ := @compressBlock_holds platform key flags counter { state with
          buf := buf
          bufLen := (tail ++ input.take (64 - tail.length)).length } whole buf.octets
        h.split.dvd (by rw [hfull, hblock]) h.cv_eq h.blocks_eq h.counter_eq h.flags_eq
      have hwholeDvd : 64 ∣ (whole ++ buf.octets).length := by
        rw [List.length_append, hfull, hblock]
        exact Nat.dvd_add h.split.dvd (Nat.dvd_refl 64)
      obtain ⟨last, whole', tail', habsorb, hlast⟩ :=
        @absorbRest_holds platform key flags counter (flush platform { state with
          buf := buf
          bufLen := (tail ++ input.take (64 - tail.length)).length }) (whole ++ buf.octets)
          (input.drop (64 - tail.length)) hwholeDvd hrest hcv hblocks h.counter_eq h.flags_eq
          rfl rfl
      refine ⟨last, whole', tail', ?_, ?_⟩
      · rw [update, hfinish, Option.bind_eq_bind, Option.bind_some]
        exact habsorb
      · have hmessage : chunk ++ input =
            whole ++ buf.octets ++ input.drop (64 - tail.length) := by
          rw [h.split.eq, hfull]
          simp [List.append_assoc, List.take_append_drop]
        rwa [hmessage]
  · have hzero : tail = [] := List.length_eq_zero_iff.mp (by omega)
    have hwhole : chunk = whole := by
      rw [h.split.eq, hzero, List.append_nil]
    have hbuf : state.buf = .zeroed 64 := FixedBytes.ext (by rw [h.buf_eq, hzero]; rfl)
    rw [hwhole, update, finishBlock, if_neg hbuffer, Option.bind_eq_bind, Option.bind_some]
    exact absorbRest_holds h.split.dvd hnil h.cv_eq h.blocks_eq h.counter_eq h.flags_eq
      (by omega) hbuf

theorem output_eq {state : ChunkState} {chunk whole tail : Bytes}
    (h : Holds platform state key flags counter chunk whole tail) :
    state.output = chunkOutput platform key flags counter chunk := by
  obtain ⟨count, hcount⟩ := h.split.dvd
  have hle := h.split.le
  have hlength : chunk.length = 64 * count + tail.length := by
    rw [h.split.eq, List.length_append, hcount]
  have hheld : tail.length = 0 → count = 0 := by
    intro hzero
    have hnil := h.split.held (List.length_eq_zero_iff.mp hzero)
    rw [hnil, List.length_nil] at hcount
    omega
  have hblocks : (chunk.length - 1) / 64 = count := by omega
  have hwhole : whole.length / 64 = count := by omega
  have htake : chunk.take (64 * count) = whole := by
    rw [h.split.eq, ← hcount, List.take_left]
  have hdrop : chunk.drop (64 * count) = tail := by
    rw [h.split.eq, ← hcount, List.drop_left]
  simp only [output, chunkOutput, BLOCK_LEN, hblocks, htake, hdrop, h.cv_eq, h.buf_eq,
    h.bufLen_eq, h.counter_eq, h.flags_eq, startFlag, h.blocks_eq, hwhole]

theorem new_update (chunk : Bytes) :
    ∃ state, update platform (new key counter flags) chunk = some state ∧
      state.output = chunkOutput platform key flags counter chunk := by
  obtain ⟨state, whole, tail, hupdate, hstate⟩ :=
    update_holds (@holds_new platform key flags counter) chunk
  exact ⟨state, hupdate, output_eq hstate⟩

end ChunkState

end Stdx.Hashes.Blake3
