import Stdx.Hashes.Sha2
import Stdx.Foundation.LittleEndian
import Stdx.Foundation.MergeTree

/-!
# BLAKE3

`crypto/src/blake3/hasher.rs` over `scalar.rs`: the state of a chunk, the subtree
compression that hashes several chunks at once, the stack of chaining values and the
three modes.  The compression function is a parameter, and so is the number of chunks a
platform hashes at once.  `none` is a slice out of range, or a broken precondition of
`hash_many`.
-/

namespace Stdx.Hashes.Blake3

open Stdx.Foundation

def BLOCK_LEN : Nat := 64
def CHUNK_LEN : Nat := 1024
def MAX_DEPTH : Nat := 54

def CHUNK_START : UInt8 := (1 : UInt8) <<< 0
def CHUNK_END : UInt8 := (1 : UInt8) <<< 1
def PARENT : UInt8 := (1 : UInt8) <<< 2
def ROOT : UInt8 := (1 : UInt8) <<< 3
def KEYED_HASH : UInt8 := (1 : UInt8) <<< 4
def DERIVE_KEY_CONTEXT : UInt8 := (1 : UInt8) <<< 5
def DERIVE_KEY_MATERIAL : UInt8 := (1 : UInt8) <<< 6

def IV : Words 32 :=
  ⟨[0x6A09E667, 0xBB67AE85, 0x3C6EF372, 0xA54FF53A, 0x510E527F, 0x9B05688C, 0x1F83D9AB,
    0x5BE0CD19], rfl⟩

abbrev Cv := FixedBytes 32

instance : Inhabited Cv := ⟨.zeroed 32⟩

def wordsFromLeBytes (bytes : FixedBytes 32) : Words 32 :=
  ⟨(List.range 8).map fun i => BitVec.ofNat 32 (leValue (blockAt 4 bytes.octets i)), by simp⟩

theorem leBytes_length (words : List (BitVec 32)) :
    (words.flatMap fun word => leOctets 4 word.toNat).length = 4 * words.length := by
  induction words with
  | nil => rfl
  | cons word words ih =>
    rw [List.flatMap_cons, List.length_append, ih, leOctets_length, List.length_cons]
    omega

def leBytesFromWords (words : Words 32) : Cv :=
  ⟨words.toList.flatMap fun word => leOctets 4 word.toNat, by
    rw [leBytes_length, List.Vector.toList_length]⟩

/-- `compress_in_place(cv, block, block_len, counter, flags)`, and the largest and the
actual number of inputs of `hash_many` that are hashed in parallel. -/
structure Platform where
  compress : Words 32 → Bytes → Nat → BitVec 64 → UInt8 → Words 32
  maxSimdDegree : Nat
  simdDegree : Nat

def Platform.maxSimdDegreeOr2 (platform : Platform) : Nat :=
  if platform.maxSimdDegree < 2 then 2 else platform.maxSimdDegree

/-! ## Chunks -/

structure ChunkState where
  cv : Words 32
  chunkCounter : BitVec 64
  buf : FixedBytes 64
  bufLen : Nat
  blocksCompressed : Nat
  flags : UInt8

structure Output where
  inputChainingValue : Words 32
  block : Bytes
  blockLen : Nat
  counter : BitVec 64
  flags : UInt8

section

variable (platform : Platform)

namespace Output

def chainingValue (output : Output) : Cv :=
  leBytesFromWords (platform.compress output.inputChainingValue output.block output.blockLen
    output.counter output.flags)

def rootHash (output : Output) : Cv :=
  leBytesFromWords (platform.compress output.inputChainingValue output.block output.blockLen 0
    (output.flags ||| ROOT))

end Output

namespace ChunkState

def new (key : Words 32) (chunkCounter : BitVec 64) (flags : UInt8) : ChunkState :=
  ⟨key, chunkCounter, .zeroed 64, 0, 0, flags⟩

def count (state : ChunkState) : Nat := BLOCK_LEN * state.blocksCompressed + state.bufLen

def fillBuf (state : ChunkState) (input : Bytes) : Option (ChunkState × Bytes) := do
  let want := BLOCK_LEN - state.bufLen
  let take := min want input.length
  let buf ← state.buf.copyInto state.bufLen (input.take take)
  some ({ state with buf := buf, bufLen := state.bufLen + take }, input.drop take)

def startFlag (state : ChunkState) : UInt8 :=
  if state.blocksCompressed = 0 then CHUNK_START else 0

def compressBlock (state : ChunkState) (block : Bytes) : ChunkState :=
  { state with
    cv := platform.compress state.cv block BLOCK_LEN state.chunkCounter
      (state.flags ||| state.startFlag)
    blocksCompressed := state.blocksCompressed + 1 }

def flush (state : ChunkState) : ChunkState :=
  { compressBlock platform state state.buf.octets with bufLen := 0, buf := .zeroed 64 }

/-- `while input.len() > BLOCK_LEN` -/
def blocks (state : ChunkState) (input : Bytes) : ChunkState × Bytes :=
  if BLOCK_LEN < input.length then
    blocks (compressBlock platform state (input.take BLOCK_LEN)) (input.drop BLOCK_LEN)
  else (state, input)
termination_by input.length
decreasing_by
  rename_i h
  simp only [BLOCK_LEN] at h ⊢
  rw [List.length_drop]
  omega

def finishBlock (state : ChunkState) (input : Bytes) : Option (ChunkState × Bytes) :=
  if state.bufLen > 0 then do
    let (state, input) ← fillBuf state input
    some (if input = [] then (state, input) else (flush platform state, input))
  else some (state, input)

def absorbRest (state : ChunkState) (input : Bytes) : Option ChunkState :=
  let (state, input) := blocks platform state input
  (fillBuf state input).map Prod.fst

def update (state : ChunkState) (input : Bytes) : Option ChunkState := do
  let (state, input) ← finishBlock platform state input
  absorbRest platform state input

def output (state : ChunkState) : Output :=
  ⟨state.cv, state.buf.octets, state.bufLen, state.chunkCounter,
    state.flags ||| state.startFlag ||| CHUNK_END⟩

end ChunkState

def parentNodeOutput (key : Words 32) (flags : UInt8) (leftChild rightChild : Cv) : Output :=
  ⟨key, leftChild.octets ++ rightChild.octets, BLOCK_LEN, 0, flags ||| PARENT⟩

/-! ## Several inputs at once -/

def hash1Blocks (counter : BitVec 64) (flags flagsEnd : UInt8) (cv : Words 32)
    (blockFlags : UInt8) (slice : Bytes) : Words 32 :=
  if slice = [] then cv
  else
    let blockFlags := if slice.length = BLOCK_LEN then blockFlags ||| flagsEnd else blockFlags
    hash1Blocks counter flags flagsEnd
      (platform.compress cv (slice.take BLOCK_LEN) BLOCK_LEN counter blockFlags) flags
      (slice.drop BLOCK_LEN)
termination_by slice.length
decreasing_by
  rename_i h
  have := List.length_pos_iff.mpr h
  simp only [BLOCK_LEN]
  rw [List.length_drop]
  omega

def hash1 (input : Bytes) (key : Words 32) (counter : BitVec 64)
    (flags flagsStart flagsEnd : UInt8) : Cv :=
  leBytesFromWords
    (hash1Blocks platform counter flags flagsEnd key (flags ||| flagsStart) input)

/-- An output of `cap` chaining values; too short a one breaks the precondition. -/
def hashMany (inputs : List Bytes) (key : Words 32) (counter : BitVec 64)
    (incrementCounter : Bool) (flags flagsStart flagsEnd : UInt8) (cap : Nat) :
    Option (List Cv) :=
  if inputs.length ≤ cap then
    some (inputs.mapIdx fun i input => hash1 platform input key
      (if incrementCounter then counter + BitVec.ofNat 64 i else counter) flags flagsStart
      flagsEnd)
  else none

/-- `input.as_chunks::<CHUNK_LEN>().0` -/
def asChunks (input : Bytes) : List Bytes :=
  (List.range (input.length / CHUNK_LEN)).map (blockAt CHUNK_LEN input)

def compressChunksParallel (input : Bytes) (key : Words 32) (chunkCounter : BitVec 64)
    (flags : UInt8) (cap : Nat) : Option (List Cv) :=
  let chunks := asChunks input
  let remainder := input.drop (CHUNK_LEN * chunks.length)
  if chunks.length ≤ platform.maxSimdDegree then do
    let cvs ← hashMany platform chunks key chunkCounter true flags CHUNK_START CHUNK_END cap
    if remainder = [] then some cvs
    else
      let counter := chunkCounter + BitVec.ofNat 64 chunks.length
      let state ← (ChunkState.new key counter flags).update platform remainder
      if chunks.length < cap then some (cvs ++ [state.output.chainingValue platform]) else none
  else none

/-- `as_chunks::<BLOCK_LEN>` of chaining values laid end to end: the pairs, and the odd
last one. -/
def pairBlocks : List Cv → List Bytes
  | left :: right :: rest => (left.octets ++ right.octets) :: pairBlocks rest
  | _ => []

def oddChild : List Cv → List Cv
  | _ :: _ :: rest => oddChild rest
  | children => children

def compressParentsParallel (children : List Cv) (key : Words 32) (flags : UInt8) (cap : Nat) :
    Option (List Cv) :=
  let parents := pairBlocks children
  if parents.length ≤ platform.maxSimdDegreeOr2 then do
    let cvs ← hashMany platform parents key 0 false (flags ||| PARENT) 0 0 cap
    if oddChild children = [] then some cvs
    else if parents.length < cap then some (cvs ++ oddChild children) else none
  else none

def largestPowerOfTwoLeqU64 (n : Nat) : Nat := if n = 0 then 1 else 2 ^ n.log2

def hazmatLeftSubtreeLen (contentLen : Nat) : Nat :=
  largestPowerOfTwoLeqU64 ((contentLen - 1) / CHUNK_LEN) * CHUNK_LEN

def cvArray (n : Nat) (cvs : List Cv) : List Cv := cvs ++ List.replicate (n - cvs.length) default

/-- The chaining values of the two parts of a subtree, one level up unless they are two
single chunks. -/
def joinSubtrees (array : List Cv) (leftN rightN : Nat) (key : Words 32) (flags : UInt8)
    (cap : Nat) : Option (List Cv) :=
  if leftN = 1 then if 2 ≤ cap then some (array.take 2) else none
  else compressParentsParallel platform (array.take (leftN + rightN)) key flags cap

def compressSubtreeWide (input : Bytes) (key : Words 32) (chunkCounter : BitVec 64)
    (flags : UInt8) (cap : Nat) : Option (List Cv) :=
  if input.length ≤ platform.simdDegree * CHUNK_LEN then
    compressChunksParallel platform input key chunkCounter flags cap
  else
    let leftLen := hazmatLeftSubtreeLen input.length
    -- `split_at`; the two parts are nonempty, so the recursion ends.
    if _h : 0 < leftLen ∧ leftLen < input.length then do
      let left := input.take leftLen
      let right := input.drop leftLen
      let rightChunkCounter := chunkCounter + BitVec.ofNat 64 (left.length / CHUNK_LEN)
      let size := 2 * platform.maxSimdDegreeOr2
      let degree := if left.length = CHUNK_LEN then 1 else max platform.simdDegree 2
      if degree ≤ size then do
        let leftOut ← compressSubtreeWide left key chunkCounter flags degree
        let rightOut ← compressSubtreeWide right key rightChunkCounter flags (size - degree)
        joinSubtrees platform (cvArray degree leftOut ++ cvArray (size - degree) rightOut)
          leftOut.length rightOut.length key flags cap
      else none
    else none
termination_by input.length
decreasing_by
  · rw [List.length_take]
    omega
  · rw [List.length_drop]
    omega

/-- `while num_cvs > 2`; every round leaves fewer, so the fuel does not run out. -/
def reduceToPair (key : Words 32) (flags : UInt8) : Nat → List Cv → Option (List Cv)
  | 0, _ => none
  | fuel + 1, cvs =>
    if cvs.length > 2 then do
      let parents ← compressParentsParallel platform cvs key flags
        (platform.maxSimdDegreeOr2 / 2)
      reduceToPair key flags fuel parents
    else some cvs

def compressSubtreeToParentNode (input : Bytes) (key : Words 32) (chunkCounter : BitVec 64)
    (flags : UInt8) : Option (Cv × Cv) := do
  let cvs ← compressSubtreeWide platform input key chunkCounter flags platform.maxSimdDegreeOr2
  let cvs ← reduceToPair platform key flags cvs.length cvs
  some (cvs.getD 0 default, cvs.getD 1 default)

def hashAllAtOnce (input : Bytes) (key : Words 32) (flags : UInt8) : Option Output :=
  if input.length ≤ CHUNK_LEN then
    ((ChunkState.new key 0 flags).update platform input).map ChunkState.output
  else
    (compressSubtreeToParentNode platform input key 0 flags).map fun pair =>
      ⟨key, pair.1.octets ++ pair.2.octets, BLOCK_LEN, 0, flags ||| PARENT⟩

/-! ## The hasher -/

/-- The entries of `cv_stack` below `cv_stack_len`, the top first. -/
structure Hasher where
  key : Words 32
  chunkState : ChunkState
  cvStack : List Cv

/-- `largest_power_of_two_leq`: the smallest power of two that is at least `n / 2 + 1`. -/
def nextPowerOfTwo (n : Nat) : Nat := if n ≤ 1 then 1 else 2 ^ ((n - 1).log2 + 1)

def largestPowerOfTwoLeq (n : Nat) : Nat := nextPowerOfTwo (n / 2 + 1)

/-- `while (subtree_len - 1) & count_so_far != 0 { subtree_len /= 2; }` -/
def alignSubtree (countSoFar : Nat) (subtreeLen : Nat) : Nat :=
  if (subtreeLen - 1) &&& countSoFar ≠ 0 then alignSubtree countSoFar (subtreeLen / 2)
  else subtreeLen
termination_by subtreeLen
decreasing_by
  rename_i h
  rcases Nat.eq_zero_or_pos subtreeLen with hzero | hpos
  · rw [hzero] at h
    simp at h
  · omega

namespace Hasher

def newInternal (key : Words 32) (flags : UInt8) : Hasher := ⟨key, .new key 0 flags, []⟩

def pushStack (hasher : Hasher) (cv : Cv) : Option Hasher :=
  if hasher.cvStack.length < MAX_DEPTH + 1 then
    some { hasher with cvStack := cv :: hasher.cvStack }
  else none

def parentCv (key : Words 32) (flags : UInt8) (left right : Cv) : Cv :=
  (parentNodeOutput key flags left right).chainingValue platform

def mergeLoop (key : Words 32) (flags : UInt8) (target : Nat) : List Cv → Option (List Cv)
  | [] => some []
  | [cv] => if target < 1 then none else some [cv]
  | right :: left :: rest =>
    if target < rest.length + 2 then
      mergeLoop key flags target (parentCv platform key flags left right :: rest)
    else some (right :: left :: rest)
termination_by stack => stack.length

def mergeCvStack (hasher : Hasher) (chunkCounter : BitVec 64) : Option Hasher := do
  let stack ← mergeLoop platform hasher.key hasher.chunkState.flags
    (countOnes chunkCounter.toNat) hasher.cvStack
  some { hasher with cvStack := stack }

def pushCv (hasher : Hasher) (newCv : Cv) (chunkCounter : BitVec 64) : Option Hasher := do
  (← mergeCvStack platform hasher chunkCounter).pushStack newCv

def finishChunk (hasher : Hasher) (input : Bytes) : Option (Hasher × Bytes × Bool) :=
  if hasher.chunkState.count > 0 then do
    let want := CHUNK_LEN - hasher.chunkState.count
    let take := min want input.length
    let state ← hasher.chunkState.update platform (input.take take)
    let input := input.drop take
    if input = [] then some ({ hasher with chunkState := state }, input, true)
    else
      let hasher ← pushCv platform { hasher with chunkState := state }
        (state.output.chainingValue platform) state.chunkCounter
      some ({ hasher with
        chunkState := .new hasher.key (state.chunkCounter + 1) state.flags }, input, false)
  else some (hasher, input, false)

def pushSubtree (hasher : Hasher) (subtree : Bytes) : Option Hasher := do
  let counter := hasher.chunkState.chunkCounter
  let flags := hasher.chunkState.flags
  let subtreeChunks := subtree.length / CHUNK_LEN
  if subtree.length ≤ CHUNK_LEN then
    let state ← (ChunkState.new hasher.key counter flags).update platform subtree
    pushCv platform hasher (state.output.chainingValue platform) counter
  else
    let pair ← compressSubtreeToParentNode platform subtree hasher.key counter flags
    let hasher ← pushCv platform hasher pair.1 counter
    pushCv platform hasher pair.2 (counter + BitVec.ofNat 64 (subtreeChunks / 2))

def advance (hasher : Hasher) (chunks : Nat) : Hasher :=
  { hasher with chunkState := { hasher.chunkState with
      chunkCounter := hasher.chunkState.chunkCounter + BitVec.ofNat 64 chunks } }

def subtreeLen (hasher : Hasher) (input : Bytes) : Nat :=
  let countSoFar := hasher.chunkState.chunkCounter * BitVec.ofNat 64 CHUNK_LEN
  alignSubtree countSoFar.toNat (largestPowerOfTwoLeq input.length)

/-- `while input.len() > CHUNK_LEN` -/
def subtrees (hasher : Hasher) (input : Bytes) : Option (Hasher × Bytes) :=
  if CHUNK_LEN < input.length then
    -- The slice; a subtree is never empty, so the loop ends.
    if _h : 0 < subtreeLen hasher input ∧ subtreeLen hasher input ≤ input.length then do
      let next ← pushSubtree platform hasher (input.take (subtreeLen hasher input))
      subtrees (next.advance (subtreeLen hasher input / CHUNK_LEN))
        (input.drop (subtreeLen hasher input))
    else none
  else some (hasher, input)
termination_by input.length
decreasing_by
  rw [List.length_drop]
  omega

def update (hasher : Hasher) (input : Bytes) : Option Hasher :=
  if input = [] then some hasher
  else do
    let (hasher, input, ended) ← finishChunk platform hasher input
    if ended then some hasher
    else
      let (hasher, input) ← subtrees platform hasher input
      if input = [] then some hasher
      else
        let state ← hasher.chunkState.update platform input
        mergeCvStack platform { hasher with chunkState := state } state.chunkCounter

def finalLoop (key : Words 32) (flags : UInt8) : Output → List Cv → Output
  | output, [] => output
  | output, cv :: rest =>
    finalLoop key flags (parentNodeOutput key flags cv (output.chainingValue platform)) rest

def finalOutput (hasher : Hasher) : Option Output :=
  match hasher.cvStack with
  | [] => some hasher.chunkState.output
  | top :: rest =>
    if hasher.chunkState.count > 0 then
      some (finalLoop platform hasher.key hasher.chunkState.flags hasher.chunkState.output
        (top :: rest))
    else
      match rest with
      | [] => none
      | second :: below => some (finalLoop platform hasher.key hasher.chunkState.flags
          (parentNodeOutput hasher.key hasher.chunkState.flags second top) below)

def finalize (hasher : Hasher) : Option Cv :=
  (finalOutput platform hasher).map (Output.rootHash platform)

end Hasher

/-! ## Modes -/

def hash (input : Bytes) : Option Cv :=
  (hashAllAtOnce platform input IV 0).map (Output.rootHash platform)

def keyedHash (key : FixedBytes 32) (input : Bytes) : Option Cv :=
  (hashAllAtOnce platform input (wordsFromLeBytes key) KEYED_HASH).map (Output.rootHash platform)

def hashDeriveKeyContext (context : Bytes) : Option Cv :=
  (hashAllAtOnce platform context IV DERIVE_KEY_CONTEXT).map (Output.rootHash platform)

def deriveKey (context keyMaterial : Bytes) : Option Cv := do
  let contextKey ← hashDeriveKeyContext platform context
  (hashAllAtOnce platform keyMaterial (wordsFromLeBytes contextKey) DERIVE_KEY_MATERIAL).map
    (Output.rootHash platform)

def Hasher.new : Hasher := newInternal IV 0

def Hasher.newKeyed (key : FixedBytes 32) : Hasher :=
  newInternal (wordsFromLeBytes key) KEYED_HASH

def Hasher.newDeriveKey (context : Bytes) : Option Hasher := do
  let contextKey ← hashDeriveKeyContext platform context
  some (newInternal (wordsFromLeBytes contextKey) DERIVE_KEY_MATERIAL)

end

end Stdx.Hashes.Blake3
