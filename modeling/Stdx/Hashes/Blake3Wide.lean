import Stdx.Hashes.Blake3Tree

/-!
# BLAKE3: subtrees hashed wide

The chaining values of the chunks of a message are the leaves of its tree.  Compressing a
subtree with several inputs at once leaves a shorter list with the same two halves, for
every number of inputs that is a power of two.
-/

namespace Stdx.Hashes.Blake3

open Stdx.Foundation

section

variable (platform : Platform) (key : Words 32) (flags : UInt8)

def leaves (counter : BitVec 64) (bytes : Bytes) : List Cv :=
  (List.range (chunkCount bytes.length)).map fun i =>
    (chunkOutput platform key flags (counter + BitVec.ofNat 64 i)
      (blockAt CHUNK_LEN bytes i)).chainingValue platform

def parent (left right : Cv) : Cv := Hasher.parentCv platform key flags left right

end

variable {platform : Platform} {key : Words 32} {flags : UInt8}

@[simp] theorem leaves_length (counter : BitVec 64) (bytes : Bytes) :
    (leaves platform key flags counter bytes).length = chunkCount bytes.length := by
  simp [leaves]

theorem leaves_append {front : Bytes} (back : Bytes) {n : Nat}
    (h : front.length = 1024 * n) (counter : BitVec 64) :
    leaves platform key flags counter (front ++ back) =
      leaves platform key flags counter front ++
        leaves platform key flags (counter + BitVec.ofNat 64 n) back := by
  have hfront : chunkCount front.length = n := by
    rw [chunkCount_eq]
    omega
  have hboth : chunkCount (front ++ back).length = n + chunkCount back.length := by
    rw [chunkCount_eq, chunkCount_eq, List.length_append]
    omega
  rw [leaves, hboth, List.range_add, List.map_append, leaves, hfront, leaves, List.map_map]
  congr 1
  · apply List.map_congr_left
    intro i hi
    rw [List.mem_range] at hi
    rw [blockAt_append_left back (by rw [CHUNK_LEN, h]; exact Nat.mul_le_mul_left _ hi)]
  · apply List.map_congr_left
    intro i _
    have hblock := blockAt_append_right back h i
    simp only [Function.comp_apply, CHUNK_LEN, hblock, BitVec.ofNat_add, BitVec.add_assoc]

theorem leaves_chunk {chunk : Bytes} (hne : chunk ≠ []) (hle : chunk.length ≤ 1024)
    (counter : BitVec 64) : leaves platform key flags counter chunk =
      [(chunkOutput platform key flags counter chunk).chainingValue platform] := by
  have hpos := List.length_pos_iff.mpr hne
  have hcount : chunkCount chunk.length = 1 := by
    rw [chunkCount_eq]
    omega
  have hblock : blockAt CHUNK_LEN chunk 0 = chunk := by
    rw [blockAt, Nat.mul_zero, List.drop_zero]
    exact List.take_of_length_le hle
  rw [leaves, hcount, List.range_one, List.map_singleton, hblock, BitVec.add_zero]

/-! ## The tree over the leaves -/

theorem leaves_split {bytes : Bytes} (h : 1024 < bytes.length) (counter : BitVec 64) :
    ∃ k, splitPoint (chunkCount bytes.length) = 2 ^ k ∧
      (bytes.take (leftLen bytes.length)).length = 1024 * 2 ^ k ∧
      (leaves platform key flags counter (bytes.take (leftLen bytes.length))).length = 2 ^ k ∧
      leaves platform key flags (counter + BitVec.ofNat 64 (2 ^ k))
        (bytes.drop (leftLen bytes.length)) ≠ [] ∧
      (leaves platform key flags (counter + BitVec.ofNat 64 (2 ^ k))
        (bytes.drop (leftLen bytes.length))).length ≤ 2 ^ k ∧
      leaves platform key flags counter bytes =
        leaves platform key flags counter (bytes.take (leftLen bytes.length)) ++
          leaves platform key flags (counter + BitVec.ofNat 64 (2 ^ k))
            (bytes.drop (leftLen bytes.length)) := by
  have hcount := chunkCount_eq bytes.length
  obtain ⟨k, hk, hlt, hle⟩ := splitPoint_spec (n := chunkCount bytes.length) (by omega)
  have hleft : leftLen bytes.length = 1024 * 2 ^ k := by rw [leftLen, hk, CHUNK_LEN]
  have htake : (bytes.take (leftLen bytes.length)).length = 1024 * 2 ^ k := by
    rw [List.length_take, hleft]
    omega
  rw [pow_succ] at hle
  refine ⟨k, hk, htake, ?_, ?_, ?_, ?_⟩
  · rw [leaves_length, htake, chunkCount_eq]
    omega
  · rw [← List.length_pos_iff, leaves_length, List.length_drop, chunkCount_eq, hleft]
    omega
  · rw [leaves_length, List.length_drop, chunkCount_eq, hleft]
    omega
  · rw [← leaves_append _ htake, List.take_append_drop]

theorem hash1Blocks_eq (counter : BitVec 64) (flagsEnd : UInt8) (n : Nat) :
    ∀ (cv : Words 32) (blockFlags : UInt8) (slice : Bytes), slice.length = 64 * (n + 1) →
      hash1Blocks platform counter flags flagsEnd cv blockFlags slice =
        platform.compress (foldBlocks 64 (fun i cv block => platform.compress cv block 64 counter
            (if i = 0 then blockFlags else flags)) n cv slice)
          (blockAt 64 slice n) 64 counter
          ((if n = 0 then blockFlags else flags) ||| flagsEnd) := by
  induction n with
  | zero =>
    intro cv blockFlags slice hlength
    have hne : slice ≠ [] := by
      rw [← List.length_pos_iff]
      omega
    have hdrop : slice.drop 64 = [] := List.drop_of_length_le (by omega)
    rw [hash1Blocks, if_neg hne, BLOCK_LEN, hdrop, hash1Blocks, if_pos rfl, if_pos hlength]
    rfl
  | succ n ih =>
    intro cv blockFlags slice hlength
    have hne : slice ≠ [] := by
      rw [← List.length_pos_iff]
      omega
    have hfront : (slice.take 64).length = 64 * 1 := by
      rw [List.length_take]
      omega
    have hback : (slice.drop 64).length = 64 * (n + 1) := by
      rw [List.length_drop]
      omega
    have hfold : foldBlocks 64 (fun i cv block => platform.compress cv block 64 counter
          (if i = 0 then blockFlags else flags)) (n + 1) cv slice =
        foldBlocks 64 (fun i cv block => platform.compress cv block 64 counter
          (if i = 0 then flags else flags)) n
          (platform.compress cv (slice.take 64) 64 counter blockFlags) (slice.drop 64) := by
      have happend := foldBlocks_append_right (slice.drop 64) hfront
        (fun i cv block => platform.compress cv block 64 counter
          (if i = 0 then blockFlags else flags)) n cv
      rw [List.take_append_drop, Nat.add_comm 1 n, foldBlocks_one] at happend
      rw [happend, List.take_of_length_le (by omega)]
      congr 1
      funext i
      simp
    have hblock : blockAt 64 slice (n + 1) = blockAt 64 (slice.drop 64) n := by
      have happend := blockAt_append_right (slice.drop 64) hfront n
      rwa [List.take_append_drop, Nat.add_comm 1 n] at happend
    rw [hash1Blocks, if_neg hne, BLOCK_LEN, if_neg (by omega), ih _ _ _ hback, hfold, hblock,
      if_neg (Nat.succ_ne_zero n)]
    simp

theorem hash1_chunk {chunk : Bytes} (h : chunk.length = 1024) (counter : BitVec 64) :
    hash1 platform chunk key counter flags CHUNK_START CHUNK_END =
      (chunkOutput platform key flags counter chunk).chainingValue platform := by
  have hcount : (chunk.length - 1) / 64 = 15 := by rw [h]
  have htake : (chunk.take (64 * 15)).length = 64 * 15 := by
    rw [List.length_take]
    omega
  have hdrop : (chunk.drop (64 * 15)).length = 64 := by
    rw [List.length_drop]
    omega
  have hfold : chunkFold platform key flags counter (chunk.take (64 * 15)) =
      foldBlocks 64 (fun i cv block => platform.compress cv block 64 counter
        (if i = 0 then flags ||| CHUNK_START else flags)) 15 key chunk := by
    have hleft := foldBlocks_append_left (chunk.drop (64 * 15)) (Nat.le_of_eq htake.symm)
      (fun i cv block => platform.compress cv block 64 counter
        (if i = 0 then flags ||| CHUNK_START else flags)) key
    rw [List.take_append_drop] at hleft
    rw [chunkFold, BLOCK_LEN, htake, hleft]
    congr 1
    funext i cv block
    by_cases hi : i = 0
    · simp only [if_pos hi]
    · simp only [if_neg hi, UInt8.or_zero]
  rw [hash1, hash1Blocks_eq counter CHUNK_END 15 _ _ _ h]
  simp only [Output.chainingValue, chunkOutput, BLOCK_LEN, hcount, hfold, hdrop]
  rw [if_neg (by decide), if_neg (by decide), blockAt, List.take_of_length_le
    (Nat.le_of_eq hdrop), Nat.sub_self, List.replicate_zero, List.append_nil, UInt8.or_zero]

theorem hash1_parent (left right : Cv) :
    hash1 platform (left.octets ++ right.octets) key 0 (flags ||| PARENT) 0 0 =
      parent platform key flags left right := by
  have hlength : (left.octets ++ right.octets).length = 64 * (0 + 1) := by
    rw [List.length_append, left.length_eq, right.length_eq]
  rw [hash1, hash1Blocks_eq 0 0 0 _ _ _ hlength, foldBlocks_zero, if_pos rfl, UInt8.or_zero,
    UInt8.or_zero, blockAt, Nat.mul_zero, List.drop_zero,
    List.take_of_length_le (Nat.le_of_eq hlength)]
  rfl

/-! ## Chunks and parents in parallel -/

theorem asChunks_length (input : Bytes) : (asChunks input).length = input.length / 1024 := by
  simp [asChunks, CHUNK_LEN]

theorem hashMany_chunks (input : Bytes) (counter : BitVec 64) {cap : Nat}
    (hcap : input.length / 1024 ≤ cap) :
    hashMany platform (asChunks input) key counter true flags CHUNK_START CHUNK_END cap =
      some (leaves platform key flags counter
        (input.take (1024 * (input.length / 1024)))) := by
  have htake : (input.take (1024 * (input.length / 1024))).length =
      1024 * (input.length / 1024) := by
    rw [List.length_take]
    omega
  have hcount : chunkCount (input.take (1024 * (input.length / 1024))).length =
      input.length / 1024 := by
    rw [htake, chunkCount_eq]
    omega
  rw [hashMany, asChunks_length, if_pos hcap, Option.some_inj]
  apply List.ext_getElem
  · rw [List.length_mapIdx, asChunks_length, leaves_length, hcount]
  · intro i hi _
    rw [List.length_mapIdx, asChunks_length] at hi
    have hblock : blockAt 1024 (input.take (1024 * (input.length / 1024))) i =
        blockAt 1024 input i := by
      have happend := @blockAt_append_left 1024 i (input.take (1024 * (input.length / 1024)))
        (input.drop (1024 * (input.length / 1024)))
        (by rw [htake]; exact Nat.mul_le_mul_left _ hi)
      rw [← happend, List.take_append_drop]
    have hlength : (blockAt 1024 input i).length = 1024 := by
      apply blockAt_length
      have hmul := Nat.mul_le_mul_left 1024 (Nat.succ_le_of_lt hi)
      omega
    simp only [List.getElem_mapIdx, asChunks, leaves, List.getElem_map, List.getElem_range,
      CHUNK_LEN, if_true, hblock, hash1_chunk hlength]

theorem compressChunksParallel_eq {input : Bytes} (counter : BitVec 64) {cap : Nat}
    (hcap : chunkCount input.length ≤ cap)
    (hdegree : input.length / 1024 ≤ platform.maxSimdDegree) :
    compressChunksParallel platform input key counter flags cap =
      some (leaves platform key flags counter input) := by
  have hcount := chunkCount_eq input.length
  have htake : (input.take (1024 * (input.length / 1024))).length =
      1024 * (input.length / 1024) := by
    rw [List.length_take]
    omega
  simp only [compressChunksParallel, asChunks_length, CHUNK_LEN, if_pos hdegree,
    hashMany_chunks input counter (by omega : input.length / 1024 ≤ cap), Option.bind_eq_bind,
    Option.bind_some]
  by_cases hrest : input.drop (1024 * (input.length / 1024)) = []
  · rw [if_pos hrest, List.take_of_length_le (List.drop_eq_nil_iff.mp hrest)]
  · have hlength : (input.drop (1024 * (input.length / 1024))).length ≤ 1024 := by
      rw [List.length_drop]
      omega
    have hroom : input.length / 1024 < cap := by
      rw [List.drop_eq_nil_iff] at hrest
      omega
    obtain ⟨state, hupdate, houtput⟩ := @ChunkState.new_update platform key flags
      (counter + BitVec.ofNat 64 (input.length / 1024))
      (input.drop (1024 * (input.length / 1024)))
    have happend := @leaves_append platform key flags _
      (input.drop (1024 * (input.length / 1024))) _ htake counter
    rw [List.take_append_drop, leaves_chunk hrest hlength] at happend
    rw [if_neg hrest, hupdate, Option.bind_some, if_pos hroom, houtput, happend]

theorem pairBlocks_length (children : List Cv) :
    (pairBlocks children).length = children.length / 2 := by
  induction children using pairBlocks.induct with
  | case1 left right rest ih =>
    rw [pairBlocks, List.length_cons, ih, List.length_cons, List.length_cons]
    omega
  | case2 children hshort =>
    match children, hshort with
    | [], _ => rfl
    | [_], _ => simp [pairBlocks]
    | left :: right :: rest, hshort => exact absurd rfl (hshort left right rest)

theorem oddChild_nil_iff (children : List Cv) :
    oddChild children = [] ↔ children.length % 2 = 0 := by
  induction children using oddChild.induct with
  | case1 left right rest ih =>
    rw [oddChild, ih, List.length_cons, List.length_cons]
    omega
  | case2 children hshort =>
    match children, hshort with
    | [], _ => simp [oddChild]
    | [_], _ => simp [oddChild]
    | left :: right :: rest, hshort => exact absurd rfl (hshort left right rest)

theorem mergePairs_eq (children : List Cv) :
    mergePairs (parent platform key flags) children =
      (pairBlocks children).map (fun block =>
        hash1 platform block key 0 (flags ||| PARENT) 0 0) ++ oddChild children := by
  induction children using mergePairs.induct with
  | case1 => rfl
  | case2 child => rfl
  | case3 left right rest ih =>
    rw [mergePairs, ih, pairBlocks, oddChild, List.map_cons, hash1_parent, List.cons_append]

theorem compressParentsParallel_eq {children : List Cv} {cap : Nat}
    (hdegree : children.length / 2 ≤ platform.maxSimdDegreeOr2)
    (hcap : (children.length + 1) / 2 ≤ cap) :
    compressParentsParallel platform children key flags cap =
      some (mergePairs (parent platform key flags) children) := by
  have hmany : hashMany platform (pairBlocks children) key 0 false (flags ||| PARENT) 0 0 cap =
      some ((pairBlocks children).map fun block =>
        hash1 platform block key 0 (flags ||| PARENT) 0 0) := by
    rw [hashMany, if_pos (by rw [pairBlocks_length]; omega), Option.some_inj]
    apply List.ext_getElem
    · simp
    · intro i _ _
      simp
  simp only [compressParentsParallel, pairBlocks_length, if_pos hdegree, hmany,
    Option.bind_eq_bind, Option.bind_some, mergePairs_eq children]
  by_cases hodd : oddChild children = []
  · rw [if_pos hodd, hodd, List.append_nil]
  · have hroom : children.length / 2 < cap := by
      rw [oddChild_nil_iff] at hodd
      omega
    rw [if_neg hodd, if_pos hroom]

/-! ## Whole subtrees -/

/-- The number of inputs that are hashed at once, and what a buffer holds at least. -/
structure Platform.Valid (platform : Platform) : Prop where
  pow : ∃ s, platform.simdDegree = 2 ^ s
  le : platform.simdDegree ≤ platform.maxSimdDegree

def Platform.width (platform : Platform) : Nat := max platform.simdDegree 2

namespace Platform.Valid

variable (valid : platform.Valid)

include valid

theorem pos : 0 < platform.simdDegree := by
  obtain ⟨s, hs⟩ := valid.pow
  rw [hs]
  exact Nat.two_pow_pos s

theorem width_le : platform.width ≤ platform.maxSimdDegreeOr2 := by
  have := valid.le
  rw [width, maxSimdDegreeOr2]
  split <;> omega

theorem width_pow : ∃ s, platform.width = 2 ^ (s + 1) := by
  obtain ⟨s, hs⟩ := valid.pow
  cases s with
  | zero => exact ⟨0, by rw [width, hs]; rfl⟩
  | succ s =>
    refine ⟨s, ?_⟩
    have hpow := Nat.two_pow_pos s
    rw [width, hs, pow_succ]
    omega

theorem le_of_lt_double {k : Nat} (h : platform.simdDegree < 2 * 2 ^ k) :
    platform.simdDegree ≤ 2 ^ k := by
  obtain ⟨s, hs⟩ := valid.pow
  rw [hs, ← pow_succ'] at h
  rw [hs]
  exact Nat.pow_le_pow_right (by decide) (Nat.lt_succ_iff.mp ((Nat.pow_lt_pow_iff_right
    (by decide)).mp h))

end Platform.Valid

/-- What a subtree with the leaves `xs` is compressed to. -/
structure Wide (platform : Platform) (key : Words 32) (flags : UInt8) (xs out : List Cv) :
    Prop where
  tree : mergeTree (parent platform key flags) out = mergeTree (parent platform key flags) xs
  le : out.length ≤ platform.width
  few : xs.length ≤ platform.simdDegree → out = xs
  many : platform.simdDegree < xs.length → 2 ≤ out.length ∧
    halves (parent platform key flags) out = halves (parent platform key flags) xs
  full : ∀ k, xs.length = 2 ^ k → 2 ≤ xs.length → platform.simdDegree ≤ xs.length →
    out.length = platform.width

theorem Wide.of_few {xs : List Cv} (h : xs.length ≤ platform.simdDegree) :
    Wide platform key flags xs xs where
  tree := rfl
  le := by rw [Platform.width]; omega
  few := fun _ => rfl
  many := fun hlt => absurd h (by omega)
  full := fun k hk htwo hle => by rw [Platform.width]; omega

theorem Wide.length_pos {xs out : List Cv} (h : Wide platform key flags xs out)
    (hxs : xs ≠ []) : out ≠ [] := by
  rcases Nat.lt_or_ge platform.simdDegree xs.length with hlt | hge
  · have := (h.many hlt).1
    rw [← List.length_pos_iff]
    omega
  · rwa [h.few hge]

theorem hazmatLeftSubtreeLen_eq {length : Nat} (h : 1024 < length) :
    hazmatLeftSubtreeLen length = leftLen length := by
  have hcount : chunkCount length - 1 = (length - 1) / 1024 := by
    rw [chunkCount_eq]
    omega
  rw [hazmatLeftSubtreeLen, largestPowerOfTwoLeqU64, CHUNK_LEN, if_neg (by omega), leftLen,
    splitPoint, hcount, CHUNK_LEN, Nat.mul_comm]

theorem joinSubtrees_pair {left right : Cv} {room cap : Nat} (hcap : 2 ≤ cap) :
    joinSubtrees platform (cvArray 1 [left] ++ cvArray room [right]) 1 1 key flags cap =
      some [left, right] := by
  simp [joinSubtrees, cvArray, hcap]

theorem joinSubtrees_eq {left right : List Cv} {room cap : Nat} (htwo : left.length ≠ 1)
    (hdegree : (left.length + right.length) / 2 ≤ platform.maxSimdDegreeOr2)
    (hcap : (left.length + right.length + 1) / 2 ≤ cap) :
    joinSubtrees platform (cvArray left.length left ++ cvArray room right) left.length
      right.length key flags cap =
        some (mergePairs (parent platform key flags) (left ++ right)) := by
  have harray : (cvArray left.length left ++ cvArray room right).take
      (left.length + right.length) = left ++ right := by
    rw [cvArray, cvArray, Nat.sub_self, List.replicate_zero, List.append_nil,
      ← List.append_assoc]
    exact List.take_left' (by rw [List.length_append])
  rw [joinSubtrees, if_neg htwo, harray]
  exact compressParentsParallel_eq (by rwa [List.length_append])
    (by rwa [List.length_append])

theorem Wide.join {xs ys left right : List Cv} {k : Nat} (hxs : xs.length = 2 ^ k)
    (htwo : 2 ≤ xs.length) (hlarge : platform.simdDegree ≤ xs.length) (hys : ys ≠ [])
    (hle : ys.length ≤ 2 ^ k) (valid : platform.Valid)
    (hleft : Wide platform key flags xs left) (hright : Wide platform key flags ys right) :
    Wide platform key flags (xs ++ ys)
      (mergePairs (parent platform key flags) (left ++ right)) := by
  obtain ⟨s, hs⟩ := valid.width_pow
  have hpow := Nat.two_pow_pos s
  have hlength := hleft.full k hxs htwo hlarge
  have hright_le := hright.le
  have hne := hright.length_pos hys
  have hpos := List.length_pos_iff.mpr hne
  have hypos := List.length_pos_iff.mpr hys
  rw [pow_succ] at hs
  have hmerged : (mergePairs (parent platform key flags) (left ++ right)).length =
      (platform.width + right.length + 1) / 2 := by
    rw [mergePairs_length, List.length_append, hlength]
  have hbig : platform.simdDegree < (xs ++ ys).length := by
    rw [List.length_append]
    omega
  have hleftPow : left.length = 2 ^ (s + 1) := by rw [hlength, hs, pow_succ]
  have hrightPow : right.length ≤ 2 ^ (s + 1) := by
    rw [pow_succ]
    omega
  refine ⟨?_, ?_, fun h => absurd h (by omega), fun _ => ⟨?_, ?_⟩, fun j hj _ _ => ?_⟩
  · rw [mergeTree_mergePairs, mergeTree_append hleftPow hne hrightPow, hleft.tree, hright.tree,
      mergeTree_append hxs hys hle]
  · omega
  · omega
  · rw [halves_mergePairs (by rw [List.length_append]; omega),
      halves_append hleftPow hne hrightPow, hleft.tree, hright.tree, halves_append hxs hys hle]
  · -- A full subtree has two full halves.
    rw [List.length_append, hxs] at hj
    have hjk : j = k + 1 := by
      have hlow : 2 ^ k < 2 ^ j := by omega
      have hhigh : 2 ^ j ≤ 2 ^ (k + 1) := by
        rw [pow_succ]
        omega
      have h1 := (Nat.pow_lt_pow_iff_right (by decide)).mp hlow
      have h2 := (Nat.pow_le_pow_iff_right (by decide)).mp hhigh
      omega
    rw [hjk, pow_succ] at hj
    have hysLength : ys.length = 2 ^ k := by omega
    have hfull := hright.full k hysLength (by omega) (by omega)
    omega

theorem Wide.pair {left right : Cv} (h : platform.simdDegree = 1) :
    Wide platform key flags [left, right] [left, right] where
  tree := rfl
  le := by
    rw [Platform.width]
    exact Nat.le_max_right _ _
  few := fun _ => rfl
  many := fun _ => ⟨Nat.le_refl 2, rfl⟩
  full := fun _ _ _ _ => by
    rw [Platform.width, h]
    rfl

/-- Room for all leaves of a small subtree, or for the output of a large one. -/
def Room (platform : Platform) (count cap : Nat) : Prop :=
  if count ≤ platform.simdDegree then count ≤ cap else platform.width ≤ cap

theorem compressSubtreeWide_eq (valid : platform.Valid) (input : Bytes) :
    ∀ (counter : BitVec 64) (cap : Nat), input ≠ [] →
      Room platform (chunkCount input.length) cap →
      ∃ out, compressSubtreeWide platform input key counter flags cap = some out ∧
        Wide platform key flags (leaves platform key flags counter input) out := by
  induction hn : input.length using Nat.strong_induction_on generalizing input with
  | _ n ih =>
    intro counter cap hne hroom
    have hcount := chunkCount_eq input.length
    have hvalidLe := valid.le
    have hvalidPos := valid.pos
    by_cases hsmall : input.length ≤ platform.simdDegree * 1024
    · -- `compress_chunks_parallel`
      have hfew : chunkCount input.length ≤ platform.simdDegree := by omega
      rw [← hn, Room, if_pos hfew] at hroom
      refine ⟨leaves platform key flags counter input, ?_,
        Wide.of_few (by rwa [leaves_length])⟩
      rw [compressSubtreeWide, CHUNK_LEN, if_pos hsmall]
      exact compressChunksParallel_eq counter hroom (by omega)
    · have hmany : platform.simdDegree < chunkCount input.length := by omega
      have hlong : 1024 < input.length := by omega
      rw [← hn, Room, if_neg (by omega)] at hroom
      obtain ⟨k, hk, htake, hleftLength, hrightNe, hrightLe, hleaves⟩ :=
        @leaves_split platform key flags input hlong counter
      obtain ⟨hpos, hlt⟩ := leftLen_lt hlong
      have hwidth := valid.width_le
      have htwoWidth : 2 ≤ platform.width := Nat.le_max_right _ _
      have hdegreeWidth : platform.simdDegree ≤ platform.width := Nat.le_max_left _ _
      have hlarge : platform.simdDegree ≤ 2 ^ k := by
        apply valid.le_of_lt_double
        obtain ⟨j, hj, -, hle⟩ := splitPoint_spec (n := chunkCount input.length) (by omega)
        rw [pow_succ, ← hj, hk] at hle
        omega
      have hchunks : (input.take (leftLen input.length)).length / 1024 = 2 ^ k := by
        rw [htake]
        omega
      have hleftNe : input.take (leftLen input.length) ≠ [] := by
        rw [← List.length_pos_iff, List.length_take]
        omega
      have hdropNe : input.drop (leftLen input.length) ≠ [] := by
        rw [← List.length_pos_iff, List.length_drop]
        omega
      have hleftCount : chunkCount (input.take (leftLen input.length)).length = 2 ^ k := by
        rw [htake, chunkCount_eq]
        omega
      rw [leaves_length] at hrightLe
      have hleftSub := ih (input.take (leftLen input.length)).length
        (by rw [List.length_take]; omega) (input.take (leftLen input.length)) rfl counter
      have hrightSub := ih (input.drop (leftLen input.length)).length
        (by rw [List.length_drop]; omega) (input.drop (leftLen input.length)) rfl
        (counter + BitVec.ofNat 64 (2 ^ k))
      rw [compressSubtreeWide, CHUNK_LEN, if_neg hsmall]
      simp only [hazmatLeftSubtreeLen_eq hlong, dif_pos (And.intro hpos hlt), hchunks]
      by_cases hone : (input.take (leftLen input.length)).length = 1024
      · -- One chunk on each side.
        have hk0 : 2 ^ k = 1 := by omega
        have hsingle : platform.simdDegree = 1 := by omega
        rw [hk0] at hleftLength hrightLe hleftCount
        rw [hleftCount] at hleftSub
        obtain ⟨left, hleft, hleftWide⟩ := hleftSub 1 hleftNe
          (by rw [Room, if_pos (by omega)])
        obtain ⟨right, hright, hrightWide⟩ :=
          hrightSub (2 * platform.maxSimdDegreeOr2 - 1) hdropNe
            (by rw [Room, if_pos (by omega)]; omega)
        have hleftEq := hleftWide.few (by rw [hleftLength]; omega)
        have hrightEq := hrightWide.few (by rw [leaves_length]; omega)
        have hrightPos := List.length_pos_iff.mpr hrightNe
        obtain ⟨leftCv, hleftCv⟩ := List.length_eq_one_iff.mp hleftLength
        obtain ⟨rightCv, hrightCv⟩ := List.length_eq_one_iff.mp
          (by rw [leaves_length] at hrightPos ⊢; omega :
            (leaves platform key flags (counter + BitVec.ofNat 64 (2 ^ k))
              (input.drop (leftLen input.length))).length = 1)
        rw [hleftCv] at hleftEq
        rw [hrightCv] at hrightEq
        refine ⟨[leftCv, rightCv], ?_, ?_⟩
        · rw [if_pos hone, if_pos (by omega), hleft, Option.bind_eq_bind, Option.bind_some,
            hright, Option.bind_some, hleftEq, hrightEq]
          exact joinSubtrees_pair (by omega)
        · rw [hleaves, hleftCv, hrightCv]
          exact Wide.pair hsingle
      · have htwoChunks : 2 ≤ 2 ^ k := by
          have := Nat.two_pow_pos k
          omega
        obtain ⟨left, hleft, hleftWide⟩ := hleftSub platform.width hleftNe
          (by rw [Room, hleftCount]; split <;> omega)
        obtain ⟨right, hright, hrightWide⟩ :=
          hrightSub (2 * platform.maxSimdDegreeOr2 - platform.width) hdropNe
            (by rw [Room]; split <;> omega)
        have hleftFull := hleftWide.full k hleftLength (by omega) (by omega)
        have hrightWidth := hrightWide.le
        refine ⟨mergePairs (parent platform key flags) (left ++ right), ?_, ?_⟩
        · rw [if_neg hone, ← Platform.width, if_pos (by omega), hleft, Option.bind_eq_bind,
            Option.bind_some, hright, Option.bind_some, ← hleftFull]
          exact joinSubtrees_eq (by omega) (by omega) (by omega)
        · rw [hleaves]
          exact Wide.join hleftLength (by omega) (by omega) hrightNe
            (by rw [leaves_length]; omega) valid hleftWide hrightWide

/-! ## The topmost parent -/

theorem reduceToPair_eq (s : Nat) :
    ∀ {fuel : Nat} {cvs : List Cv}, cvs.length ≤ fuel → 2 ≤ cvs.length →
      cvs.length ≤ 2 ^ (s + 1) → 2 ^ (s + 1) ≤ platform.maxSimdDegreeOr2 →
      ∃ left right, reduceToPair platform key flags fuel cvs = some [left, right] ∧
        (left, right) = halves (parent platform key flags) cvs := by
  intro fuel
  induction fuel with
  | zero =>
    intro cvs hfuel htwo
    omega
  | succ fuel ih =>
    intro cvs hfuel htwo hle hdegree
    rw [pow_succ] at hle hdegree
    by_cases hmore : cvs.length > 2
    · have hparents : compressParentsParallel platform cvs key flags
          (platform.maxSimdDegreeOr2 / 2) =
          some (mergePairs (parent platform key flags) cvs) :=
        compressParentsParallel_eq (by omega) (by omega)
      obtain ⟨left, right, hreduce, hhalves⟩ :=
        @ih (mergePairs (parent platform key flags) cvs)
          (by rw [mergePairs_length]; omega) (by rw [mergePairs_length]; omega)
          (by rw [mergePairs_length, pow_succ]; omega) (by rw [pow_succ]; omega)
      refine ⟨left, right, ?_, ?_⟩
      · rw [reduceToPair, if_pos hmore, hparents, Option.bind_eq_bind, Option.bind_some,
          hreduce]
      · rw [hhalves, halves_mergePairs (by omega)]
    · match cvs, (by omega : cvs.length = 2) with
      | [left, right], _ =>
        have hpair := @halves_append Cv _ (parent platform key flags) [left] [right] 0 rfl
          (by simp) (by simp)
        rw [mergeTree_singleton, mergeTree_singleton] at hpair
        exact ⟨left, right, by rw [reduceToPair, if_neg (by simp)], hpair.symm⟩

theorem compressSubtreeToParentNode_eq (valid : platform.Valid) {input : Bytes}
    (h : 1024 < input.length) (counter : BitVec 64) :
    compressSubtreeToParentNode platform input key counter flags =
      some (halves (parent platform key flags) (leaves platform key flags counter input)) := by
  have hcount := chunkCount_eq input.length
  have hne : input ≠ [] := by
    rw [← List.length_pos_iff]
    omega
  have hwidth := valid.width_le
  have hdegreeWidth : platform.simdDegree ≤ platform.width := Nat.le_max_left _ _
  obtain ⟨out, hout, hwide⟩ := @compressSubtreeWide_eq platform key flags valid input counter
    platform.maxSimdDegreeOr2 hne (by rw [Room]; split <;> omega)
  obtain ⟨s, hs⟩ := valid.width_pow
  have hle := hwide.le
  have hhalves : 2 ≤ out.length ∧ halves (parent platform key flags) out =
      halves (parent platform key flags) (leaves platform key flags counter input) := by
    rcases Nat.lt_or_ge platform.simdDegree
      (leaves platform key flags counter input).length with hlt | hge
    · exact hwide.many hlt
    · rw [hwide.few hge, leaves_length]
      exact ⟨by omega, rfl⟩
  obtain ⟨left, right, hreduce, hpair⟩ := @reduceToPair_eq platform key flags s out.length out
    (Nat.le_refl _) hhalves.1 (by omega) (by omega)
  rw [compressSubtreeToParentNode, hout, Option.bind_eq_bind, Option.bind_some, hreduce,
    Option.bind_some, ← hhalves.2, ← hpair]
  rfl

end Stdx.Hashes.Blake3
