import Mathlib
import Stdx.Hashes.Blake3Wide

/-!
# BLAKE3 in pieces

At a chunk boundary the stack of the hasher is the stack of the leaves in front of its
last subtree with the value of that subtree on top, not yet merged; inside a chunk it is
merged, one value for each one bit of the number of chunks.  From this every split of a
message into updates gives the root of its tree.
-/

namespace Stdx.Hashes.Blake3

open Stdx.Foundation

section

variable (platform : Platform) (key : Words 32) (flags : UInt8)

inductive Pushed : List Cv → List Cv → Prop where
  | empty : Pushed [] []
  | subtree {front back : List Cv} {k : Nat} (length : back.length = 2 ^ k)
      (dvd : 2 ^ k ∣ front.length) :
      Pushed (front ++ back) (mergeTree (parent platform key flags) back ::
        stackOf (parent platform key flags) front)

def Hasher.atChunk (chunks : Nat) (stack : List Cv) : Hasher :=
  ⟨key, .new key (BitVec.ofNat 64 chunks) flags, stack⟩

structure Hasher.Boundary (hasher : Hasher) (whole : Bytes) : Prop where
  eq : hasher = atChunk key flags (whole.length / 1024) hasher.cvStack
  dvd : 1024 ∣ whole.length
  pushed : Pushed platform key flags (leaves platform key flags 0 whole) hasher.cvStack

structure Hasher.Inside (hasher : Hasher) (whole part : Bytes) : Prop where
  key_eq : hasher.key = key
  part_ne : part ≠ []
  part_le : part.length ≤ 1024
  dvd : 1024 ∣ whole.length
  state : ∃ done held, ChunkState.Holds platform hasher.chunkState key flags
    (BitVec.ofNat 64 (whole.length / 1024)) part done held
  stack_eq : hasher.cvStack = stackOf (parent platform key flags)
    (leaves platform key flags 0 whole)

inductive Hasher.Holds (hasher : Hasher) : Bytes → Prop where
  | boundary {message : Bytes} (between : Boundary platform key flags hasher message)
      (halves : hasher.cvStack.length ≠ 1) : Holds hasher message
  | inside {whole part : Bytes} (within : Inside platform key flags hasher whole part) :
      Holds hasher (whole ++ part)

end

variable {platform : Platform} {key : Words 32} {flags : UInt8}

/-! ## The stack -/

theorem mergeLoop_eq {target : Nat} (htarget : 0 < target) (stack : List Cv) :
    Hasher.mergeLoop platform key flags target stack =
      some (mergeTo (parent platform key flags) target stack) := by
  induction stack using mergeTo.induct (parent platform key flags) target with
  | case1 => rw [Hasher.mergeLoop, mergeTo]
  | case2 cv => rw [Hasher.mergeLoop, mergeTo, if_neg (by omega)]
  | case3 right left rest hlt ih =>
    rw [Hasher.mergeLoop, if_pos hlt, mergeTo, if_pos hlt]
    exact ih
  | case4 right left rest hge => rw [Hasher.mergeLoop, if_neg hge, mergeTo, if_neg hge]

theorem mergeLoop_merged (xs : List Cv) :
    Hasher.mergeLoop platform key flags (countOnes xs.length)
        (stackOf (parent platform key flags) xs) =
      some (stackOf (parent platform key flags) xs) := by
  have hlength := @stackOf_length Cv _ (parent platform key flags) xs
  match hstack : stackOf (parent platform key flags) xs with
  | [] => rw [Hasher.mergeLoop]
  | [cv] =>
    rw [hstack, List.length_singleton] at hlength
    rw [Hasher.mergeLoop, if_neg (by omega)]
  | right :: left :: rest =>
    rw [hstack, List.length_cons, List.length_cons] at hlength
    rw [Hasher.mergeLoop, if_neg (by omega)]

theorem Pushed.merge {xs stack : List Cv} (h : Pushed platform key flags xs stack) :
    Hasher.mergeLoop platform key flags (countOnes xs.length) stack =
      some (stackOf (parent platform key flags) xs) := by
  cases h with
  | empty => rw [stackOf_nil, Hasher.mergeLoop]
  | @subtree front back k length dvd =>
    have hpow := Nat.two_pow_pos k
    rw [List.length_append, length, mergeLoop_eq (countOnes_pos (by omega)),
      mergeTo_push length dvd]

theorem stackOf_bound {xs : List Cv} (h : xs.length < 2 ^ 54) :
    (stackOf (parent platform key flags) xs).length ≤ MAX_DEPTH := by
  rw [stackOf_length]
  exact countOnes_le h

theorem Pushed.length_le {xs stack : List Cv} (h : Pushed platform key flags xs stack)
    (hlt : xs.length < 2 ^ 54) : stack.length ≤ MAX_DEPTH + 1 := by
  cases h with
  | empty => exact Nat.zero_le _
  | @subtree front back k length dvd =>
    rw [List.length_append] at hlt
    have := @stackOf_bound platform key flags front (by omega)
    rw [List.length_cons]
    omega

theorem pushCv_eq {hasher : Hasher} {xs : List Cv} {counter : BitVec 64}
    (hkey : hasher.key = key) (hflags : hasher.chunkState.flags = flags)
    (hmerge : Hasher.mergeLoop platform key flags (countOnes xs.length) hasher.cvStack =
      some (stackOf (parent platform key flags) xs))
    (hcounter : counter.toNat = xs.length) (hlt : xs.length < 2 ^ 54) (cv : Cv) :
    Hasher.pushCv platform hasher cv counter =
      some { hasher with cvStack := cv :: stackOf (parent platform key flags) xs } := by
  have hroom := @stackOf_bound platform key flags xs hlt
  simp only [Hasher.pushCv, Hasher.mergeCvStack, hkey, hflags, hcounter, hmerge,
    Option.bind_eq_bind, Option.bind_some, Hasher.pushStack, if_pos (Nat.lt_succ_of_le hroom)]

/-! ## One subtree -/

theorem counter_toNat {length : Nat} (h : length < 2 ^ 64) :
    (BitVec.ofNat 64 (length / 1024)).toNat = length / 1024 := by
  rw [BitVec.toNat_ofNat]
  exact Nat.mod_eq_of_lt (by omega)

namespace Hasher

theorem leaves_whole {whole : Bytes} (hdvd : 1024 ∣ whole.length) (counter : BitVec 64) :
    (leaves platform key flags counter whole).length = whole.length / 1024 := by
  rw [Blake3.leaves_length, chunkCount_eq]
  omega

theorem leaves_behind {whole : Bytes} (hdvd : 1024 ∣ whole.length) (back : Bytes) :
    leaves platform key flags 0 (whole ++ back) = leaves platform key flags 0 whole ++
      leaves platform key flags (BitVec.ofNat 64 (whole.length / 1024)) back := by
  rw [leaves_append back (Nat.mul_div_cancel' hdvd).symm]
  congr 2
  exact BitVec.zero_add _

theorem advance_atChunk (chunks more : Nat) (stack : List Cv) :
    (atChunk key flags chunks stack).advance more = atChunk key flags (chunks + more) stack := by
  rw [atChunk, atChunk, BitVec.ofNat_add]
  rfl

theorem Boundary.push {whole subtree : Bytes} {front back : List Cv} {k : Nat}
    (hwhole : 1024 ∣ whole.length) (hsubtree : 1024 ∣ subtree.length)
    (hleaves : leaves platform key flags 0 (whole ++ subtree) = front ++ back)
    (hlength : back.length = 2 ^ k) (hdvd : 2 ^ k ∣ front.length) :
    Boundary platform key flags
      ((atChunk key flags (whole.length / 1024)
        (mergeTree (parent platform key flags) back ::
          stackOf (parent platform key flags) front)).advance (subtree.length / 1024))
      (whole ++ subtree) where
  eq := by
    have hsum : (whole ++ subtree).length / 1024 =
        whole.length / 1024 + subtree.length / 1024 := by
      rw [List.length_append]
      omega
    rw [advance_atChunk, hsum]
    rfl
  dvd := by
    rw [List.length_append]
    exact Nat.dvd_add hwhole hsubtree
  pushed := by
    rw [hleaves]
    exact Pushed.subtree hlength hdvd

theorem pushSubtree_chunk {whole subtree : Bytes} {stack : List Cv}
    (hwhole : 1024 ∣ whole.length) (hlength : subtree.length = 1024)
    (hpushed : Pushed platform key flags (leaves platform key flags 0 whole) stack)
    (hsize : whole.length < 2 ^ 64) :
    ∃ next, pushSubtree platform (atChunk key flags (whole.length / 1024) stack) subtree =
        some next ∧
      Boundary platform key flags (next.advance (subtree.length / 1024)) (whole ++ subtree) := by
  have hcounter := counter_toNat hsize
  have hleaves := @leaves_whole platform key flags whole hwhole 0
  have hne : subtree ≠ [] := by
    rw [← List.length_pos_iff]
    omega
  obtain ⟨state, hupdate, houtput⟩ := @ChunkState.new_update platform key flags
    (BitVec.ofNat 64 (whole.length / 1024)) subtree
  have hchunk := @leaves_chunk platform key flags subtree hne (Nat.le_of_eq hlength)
    (BitVec.ofNat 64 (whole.length / 1024))
  have hpush := @pushCv_eq platform key flags (atChunk key flags (whole.length / 1024) stack)
    (leaves platform key flags 0 whole) (BitVec.ofNat 64 (whole.length / 1024)) rfl rfl
    hpushed.merge (by rw [hcounter, hleaves]) (by omega)
    (mergeTree (parent platform key flags)
      (leaves platform key flags (BitVec.ofNat 64 (whole.length / 1024)) subtree))
  refine ⟨_, ?_, @Boundary.push platform key flags whole subtree _ _ 0 hwhole
    ⟨1, hlength⟩ (leaves_behind hwhole subtree) (by rw [hchunk]; rfl) (Nat.one_dvd _)⟩
  rw [hchunk, mergeTree_singleton, ← houtput] at hpush ⊢
  rw [pushSubtree, CHUNK_LEN, if_pos (Nat.le_of_eq hlength)]
  show (ChunkState.update platform (.new key (BitVec.ofNat 64 (whole.length / 1024)) flags)
    subtree).bind _ = _
  rw [hupdate, Option.bind_some]
  exact hpush

theorem pushSubtree_pair (valid : platform.Valid) {whole subtree : Bytes} {stack : List Cv}
    {j : Nat} (hwhole : 1024 ∣ whole.length) (hlength : subtree.length = 1024 * 2 ^ (j + 1))
    (hdvd : 2 ^ j ∣ whole.length / 1024)
    (hpushed : Pushed platform key flags (leaves platform key flags 0 whole) stack)
    (hsize : whole.length + subtree.length < 2 ^ 64) :
    ∃ next, pushSubtree platform (atChunk key flags (whole.length / 1024) stack) subtree =
        some next ∧
      Boundary platform key flags (next.advance (subtree.length / 1024)) (whole ++ subtree) ∧
      next.cvStack.length ≠ 1 := by
  have hjpow := Nat.two_pow_pos j
  have hdouble : 2 ^ (j + 1) = 2 ^ j * 2 := pow_succ 2 j
  have hlong : 1024 < subtree.length := by omega
  have hcounter := counter_toNat (by omega : whole.length < 2 ^ 64)
  have hleaves := @leaves_whole platform key flags whole hwhole 0
  have hsubtreeDvd : 1024 ∣ subtree.length := ⟨2 ^ (j + 1), hlength⟩
  have hbehind := @leaves_behind platform key flags whole hwhole subtree
  have hback := @leaves_whole platform key flags subtree hsubtreeDvd
    (BitVec.ofNat 64 (whole.length / 1024))
  have hpair := @compressSubtreeToParentNode_eq platform key flags valid subtree hlong
    (BitVec.ofNat 64 (whole.length / 1024))
  generalize leaves platform key flags (BitVec.ofNat 64 (whole.length / 1024)) subtree = ys
    at hback hbehind hpair
  have hfirst : (ys.take (2 ^ j)).length = 2 ^ j := by
    rw [List.length_take]
    omega
  have hsecond : (ys.drop (2 ^ j)).length = 2 ^ j := by
    rw [List.length_drop]
    omega
  have hhalves := @halves_append Cv _ (parent platform key flags) (ys.take (2 ^ j))
    (ys.drop (2 ^ j)) j hfirst (by rw [← List.length_pos_iff, hsecond]; exact hjpow)
    (Nat.le_of_eq hsecond)
  rw [List.take_append_drop] at hhalves
  rw [hhalves] at hpair
  have hbothLength : (leaves platform key flags 0 whole ++ ys.take (2 ^ j)).length =
      whole.length / 1024 + 2 ^ j := by
    rw [List.length_append, hleaves, hfirst]
  have hrightCounter : (BitVec.ofNat 64 (whole.length / 1024) +
      BitVec.ofNat 64 (subtree.length / 1024 / 2)).toNat = whole.length / 1024 + 2 ^ j := by
    have hhalf : subtree.length / 1024 / 2 = 2 ^ j := by omega
    rw [hhalf, ← BitVec.ofNat_add, BitVec.toNat_ofNat]
    exact Nat.mod_eq_of_lt (by omega)
  -- The second push merges the first.
  have hleft := @pushCv_eq platform key flags (atChunk key flags (whole.length / 1024) stack)
    (leaves platform key flags 0 whole) (BitVec.ofNat 64 (whole.length / 1024)) rfl rfl
    hpushed.merge (by rw [hcounter, hleaves]) (by omega)
    (mergeTree (parent platform key flags) (ys.take (2 ^ j)))
  have hleftPushed := @Pushed.subtree platform key flags (leaves platform key flags 0 whole)
    (ys.take (2 ^ j)) j hfirst (by rw [hleaves]; exact hdvd)
  have hright := @pushCv_eq platform key flags (atChunk key flags (whole.length / 1024) _)
    (leaves platform key flags 0 whole ++ ys.take (2 ^ j))
    (BitVec.ofNat 64 (whole.length / 1024) + BitVec.ofNat 64 (subtree.length / 1024 / 2))
    rfl rfl hleftPushed.merge (by rw [hrightCounter, hbothLength]) (by omega)
    (mergeTree (parent platform key flags) (ys.drop (2 ^ j)))
  refine ⟨_, ?_, @Boundary.push platform key flags whole subtree _ _ j hwhole hsubtreeDvd
    (by rw [hbehind, List.append_assoc, List.take_append_drop]) hsecond
    (by rw [hbothLength]; exact Nat.dvd_add hdvd (Nat.dvd_refl _)), ?_⟩
  · rw [pushSubtree, CHUNK_LEN, if_neg (by omega)]
    show (compressSubtreeToParentNode platform subtree key
      (BitVec.ofNat 64 (whole.length / 1024)) flags).bind _ = _
    rw [hpair, Option.bind_some]
    show (pushCv platform (atChunk key flags (whole.length / 1024) stack) _
      (BitVec.ofNat 64 (whole.length / 1024))).bind _ = _
    rw [hleft, Option.bind_some]
    exact hright
  · have hones := countOnes_pos (by omega : 0 < whole.length / 1024 + 2 ^ j)
    show (stackOf (parent platform key flags) _).length + 1 ≠ 1
    rw [stackOf_length, hbothLength]
    omega

/-! ## The length of a subtree -/

theorem alignSubtree_pow {count a : Nat} (hcount : 2 ^ a ∣ count) (m : Nat) (ham : a ≤ m) :
    ∃ j, alignSubtree count (2 ^ m) = 2 ^ j ∧ a ≤ j ∧ j ≤ m ∧ 2 ^ j ∣ count := by
  induction m with
  | zero =>
    refine ⟨0, ?_, ham, Nat.le_refl 0, Nat.one_dvd _⟩
    rw [alignSubtree, if_neg (by simp)]
  | succ m ih =>
    have hmask : (2 ^ (m + 1) - 1) &&& count = count % 2 ^ (m + 1) := by
      rw [Nat.and_comm, Nat.and_two_pow_sub_one_eq_mod]
    by_cases hzero : count % 2 ^ (m + 1) = 0
    · refine ⟨m + 1, ?_, ham, Nat.le_refl _, Nat.dvd_of_mod_eq_zero hzero⟩
      rw [alignSubtree, hmask, if_neg (by rw [hzero]; simp)]
    · have hlt : a ≤ m := by
        by_contra hge
        have hsame : a = m + 1 := by omega
        rw [hsame] at hcount
        exact hzero (Nat.mod_eq_zero_of_dvd hcount)
      have hhalf : 2 ^ (m + 1) / 2 = 2 ^ m := by
        rw [pow_succ]
        omega
      obtain ⟨j, hj, haj, hjm, hdvd⟩ := ih hlt
      refine ⟨j, ?_, haj, by omega, hdvd⟩
      rw [alignSubtree, hmask, if_pos hzero, hhalf, hj]

theorem largestPowerOfTwoLeq_spec {n : Nat} (h : 1024 < n) :
    ∃ m, largestPowerOfTwoLeq n = 2 ^ m ∧ 10 ≤ m ∧ 2 ^ m ≤ n := by
  have hpow : n / 2 + 1 - 1 = n / 2 := by omega
  have hlow := Nat.log2_self_le (n := n / 2) (by omega)
  refine ⟨(n / 2).log2 + 1, ?_, ?_, ?_⟩
  · rw [largestPowerOfTwoLeq, nextPowerOfTwo, if_neg (by omega), hpow]
  · have hnine : 9 ≤ (n / 2).log2 := (Nat.le_log2 (by omega)).mpr (by omega)
    omega
  · rw [pow_succ]
    omega

theorem subtreeLen_spec {whole input : Bytes} {stack : List Cv} (hwhole : 1024 ∣ whole.length)
    (hlong : 1024 < input.length) (hsize : whole.length < 2 ^ 64) :
    ∃ k, subtreeLen (atChunk key flags (whole.length / 1024) stack) input = 1024 * 2 ^ k ∧
      2 ^ k ∣ whole.length / 1024 ∧ 1024 * 2 ^ k ≤ input.length := by
  obtain ⟨m, hm, hten, hle⟩ := largestPowerOfTwoLeq_spec hlong
  have hcount : (BitVec.ofNat 64 (whole.length / 1024) * BitVec.ofNat 64 CHUNK_LEN).toNat =
      whole.length := by
    rw [← BitVec.ofNat_mul, BitVec.toNat_ofNat, CHUNK_LEN, Nat.div_mul_cancel hwhole]
    exact Nat.mod_eq_of_lt hsize
  obtain ⟨j, hj, hlow, hhigh, hdvd⟩ := @alignSubtree_pow whole.length 10 hwhole m hten
  obtain ⟨k, rfl⟩ := Nat.exists_eq_add_of_le hlow
  have hsplit : 2 ^ (10 + k) = 1024 * 2 ^ k := pow_add 2 10 k
  refine ⟨k, ?_, ?_, ?_⟩
  · show alignSubtree (BitVec.ofNat 64 (whole.length / 1024) *
      BitVec.ofNat 64 CHUNK_LEN).toNat (largestPowerOfTwoLeq input.length) = _
    rw [hcount, hm, hj, hsplit]
  · obtain ⟨chunks, hchunks⟩ := hwhole
    rw [hsplit, hchunks] at hdvd
    rw [hchunks, Nat.mul_div_cancel_left _ (by decide)]
    exact Nat.dvd_of_mul_dvd_mul_left (by decide) hdvd
  · have := Nat.pow_le_pow_right (by decide : 0 < 2) hhigh
    omega

/-! ## Updates -/

theorem pushSubtree_holds (valid : platform.Valid) {hasher : Hasher} {whole subtree : Bytes}
    {k : Nat} (h : Boundary platform key flags hasher whole)
    (hlength : subtree.length = 1024 * 2 ^ k) (hdvd : 2 ^ k ∣ whole.length / 1024)
    (hsize : whole.length + subtree.length < 2 ^ 64) :
    ∃ next, pushSubtree platform hasher subtree = some next ∧
      Boundary platform key flags (next.advance (subtree.length / 1024)) (whole ++ subtree) ∧
      (1024 < subtree.length → next.cvStack.length ≠ 1) := by
  rw [h.eq]
  cases k with
  | zero =>
    obtain ⟨next, hpush, hnext⟩ := pushSubtree_chunk h.dvd hlength h.pushed (by omega)
    exact ⟨next, hpush, hnext, fun hlong => absurd hlength (by omega)⟩
  | succ j =>
    have hj : 2 ^ j ∣ whole.length / 1024 := Dvd.dvd.trans ⟨2, pow_succ 2 j⟩ hdvd
    obtain ⟨next, hpush, hnext, hpair⟩ :=
      pushSubtree_pair valid h.dvd hlength hj h.pushed hsize
    exact ⟨next, hpush, hnext, fun _ => hpair⟩

/-- The loop of `update` stops in front of the last chunk, or at the end of a subtree. -/
theorem subtrees_holds (valid : platform.Valid) (input : Bytes) :
    ∀ {hasher : Hasher} {whole : Bytes}, Boundary platform key flags hasher whole →
      whole.length + input.length < 2 ^ 64 →
      ∃ next whole' rest, subtrees platform hasher input = some (next, rest) ∧
        whole ++ input = whole' ++ rest ∧ rest.length ≤ 1024 ∧
        Boundary platform key flags next whole' ∧
        (rest = [] → input ≠ [] → next.cvStack.length ≠ 1) := by
  induction hn : input.length using Nat.strong_induction_on generalizing input with
  | _ n ih =>
    intro hasher whole h hsize
    by_cases hlong : 1024 < input.length
    · have hspec := @subtreeLen_spec key flags whole input hasher.cvStack h.dvd hlong (by omega)
      rw [← h.eq] at hspec
      obtain ⟨k, hk, hdvd, hle⟩ := hspec
      have hpow := Nat.two_pow_pos k
      have htake : (input.take (1024 * 2 ^ k)).length = 1024 * 2 ^ k := by
        rw [List.length_take]
        omega
      have hdrop : (input.drop (1024 * 2 ^ k)).length = input.length - 1024 * 2 ^ k :=
        List.length_drop
      obtain ⟨next, hpush, hnext, hpair⟩ :=
        pushSubtree_holds valid h htake hdvd (by omega)
      rw [htake] at hnext
      obtain ⟨last, whole', rest, hloop, hmessage, hrest, hlast, hclosed⟩ :=
        ih (input.drop (1024 * 2 ^ k)).length (by omega) (input.drop (1024 * 2 ^ k)) rfl hnext
          (by rw [List.length_append]; omega)
      refine ⟨last, whole', rest, ?_, ?_, hrest, hlast, fun hnil _ => ?_⟩
      · rw [subtrees, CHUNK_LEN, if_pos hlong, hk, dif_pos ⟨by omega, hle⟩, hpush,
          Option.bind_eq_bind, Option.bind_some]
        exact hloop
      · rw [← hmessage, List.append_assoc, List.take_append_drop]
      · by_cases hend : input.drop (1024 * 2 ^ k) = []
        · -- The last subtree is the whole rest of the input.
          rw [hend, subtrees, if_neg (by simp), Option.some_inj, Prod.mk.injEq] at hloop
          rw [← hloop.1]
          rw [hend, List.length_nil] at hdrop
          exact hpair (by omega)
        · exact hclosed hnil hend
    · refine ⟨hasher, whole, input, ?_, rfl, by omega, h, fun hnil hne => absurd hnil hne⟩
      rw [subtrees, CHUNK_LEN, if_neg hlong]

theorem lastChunk_holds {hasher : Hasher} {whole part : Bytes}
    (h : Boundary platform key flags hasher whole) (hne : part ≠ []) (hle : part.length ≤ 1024)
    (hsize : whole.length < 2 ^ 64) :
    ∃ state next, hasher.chunkState.update platform part = some state ∧
      mergeCvStack platform { hasher with chunkState := state } state.chunkCounter =
        some next ∧ Inside platform key flags next whole part := by
  have hcounter := counter_toNat hsize
  have hleaves := @leaves_whole platform key flags whole h.dvd 0
  obtain ⟨state, done, held, hupdate, hstate⟩ := ChunkState.update_holds
    (@ChunkState.holds_new platform key flags (BitVec.ofNat 64 (whole.length / 1024))) part
  have hmerge := h.pushed.merge
  rw [hleaves] at hmerge
  refine ⟨state, ⟨hasher.key, state, stackOf (parent platform key flags)
    (leaves platform key flags 0 whole)⟩, ?_, ?_, ⟨?_, hne, hle, h.dvd, ⟨done, held, hstate⟩,
    rfl⟩⟩
  · rw [h.eq]
    exact hupdate
  · have hkey : hasher.key = key := by
      rw [h.eq]
      rfl
    simp only [mergeCvStack, hkey, hstate.flags_eq, hstate.counter_eq, hcounter, hmerge,
      Option.bind_eq_bind, Option.bind_some]
  · rw [h.eq]
    rfl

theorem pushChunk_holds {hasher : Hasher} {whole part : Bytes} {state : ChunkState}
    {done held : Bytes} (hkey : hasher.key = key) (hdvd : 1024 ∣ whole.length)
    (hstack : hasher.cvStack = stackOf (parent platform key flags)
      (leaves platform key flags 0 whole))
    (hstate : ChunkState.Holds platform state key flags
      (BitVec.ofNat 64 (whole.length / 1024)) part done held)
    (hfull : part.length = 1024) (hsize : whole.length < 2 ^ 64) :
    ∃ next, pushCv platform { hasher with chunkState := state }
        (state.output.chainingValue platform) state.chunkCounter = some next ∧
      Boundary platform key flags { next with
        chunkState := .new next.key (state.chunkCounter + 1) state.flags } (whole ++ part) := by
  have hcounter := counter_toNat hsize
  have hleaves := @leaves_whole platform key flags whole hdvd 0
  have hne : part ≠ [] := by
    rw [← List.length_pos_iff]
    omega
  have hchunk := @leaves_chunk platform key flags part hne (Nat.le_of_eq hfull)
    (BitVec.ofNat 64 (whole.length / 1024))
  have hmerge : mergeLoop platform key flags
      (countOnes (leaves platform key flags 0 whole).length) hasher.cvStack =
      some (stackOf (parent platform key flags) (leaves platform key flags 0 whole)) := by
    rw [hstack]
    exact mergeLoop_merged _
  have hpush := @pushCv_eq platform key flags { hasher with chunkState := state }
    (leaves platform key flags 0 whole) state.chunkCounter hkey hstate.flags_eq hmerge
    (by rw [hstate.counter_eq, hcounter, hleaves]) (by omega)
    (mergeTree (parent platform key flags)
      (leaves platform key flags (BitVec.ofNat 64 (whole.length / 1024)) part))
  refine ⟨{ hasher with
    chunkState := state
    cvStack := mergeTree (parent platform key flags)
        (leaves platform key flags (BitVec.ofNat 64 (whole.length / 1024)) part) ::
      stackOf (parent platform key flags) (leaves platform key flags 0 whole) }, ?_, ?_⟩
  · rw [← hpush, hchunk, mergeTree_singleton, ChunkState.output_eq hstate]
  · have hboundary := @Boundary.push platform key flags whole part _ _ 0 hdvd ⟨1, hfull⟩
      (leaves_behind hdvd part) (by rw [hchunk]; rfl) (Nat.one_dvd _)
    rw [hfull] at hboundary
    have hnext : (BitVec.ofNat 64 (whole.length / 1024) + 1) =
        BitVec.ofNat 64 (whole.length / 1024) + BitVec.ofNat 64 (1024 / 1024) := rfl
    simp only [hkey, hstate.counter_eq, hstate.flags_eq, hnext]
    exact hboundary

theorem absorb_holds (valid : platform.Valid) {hasher : Hasher} {whole input : Bytes}
    (h : Boundary platform key flags hasher whole) (hne : input ≠ [])
    (hsize : whole.length + input.length < 2 ^ 64) :
    ∃ next, (subtrees platform hasher input).bind (fun (hasher, input) =>
        if input = [] then some hasher
        else (hasher.chunkState.update platform input).bind fun state =>
          mergeCvStack platform { hasher with chunkState := state } state.chunkCounter) =
        some next ∧ Holds platform key flags next (whole ++ input) := by
  obtain ⟨middle, whole', rest, hloop, hmessage, hrest, hmiddle, hclosed⟩ :=
    subtrees_holds valid input h hsize
  rw [hloop, Option.bind_some, hmessage]
  by_cases hnil : rest = []
  · refine ⟨middle, ?_, ?_⟩
    · exact if_pos hnil
    · rw [hnil, List.append_nil]
      exact Holds.boundary hmiddle (hclosed hnil hne)
  · have hlengths := congrArg List.length hmessage
    rw [List.length_append, List.length_append] at hlengths
    obtain ⟨state, next, hupdate, hmerge, hinside⟩ :=
      lastChunk_holds hmiddle hnil hrest (by omega)
    refine ⟨next, ?_, Holds.inside hinside⟩
    simp only [if_neg hnil, hupdate, Option.bind_some, hmerge]

theorem update_holds (valid : platform.Valid) {hasher : Hasher} {message input : Bytes}
    (h : Holds platform key flags hasher message)
    (hsize : message.length + input.length < 2 ^ 64) :
    ∃ next, update platform hasher input = some next ∧
      Holds platform key flags next (message ++ input) := by
  by_cases hne : input = []
  · refine ⟨hasher, ?_, ?_⟩
    · rw [update, if_pos hne]
    · rwa [hne, List.append_nil]
  rw [update, if_neg hne]
  cases h with
  | boundary between halves =>
    have hcount : hasher.chunkState.count = 0 := by
      rw [between.eq]
      rfl
    rw [finishChunk, if_neg (by omega)]
    exact absorb_holds valid between hne hsize
  | @inside whole part within =>
    obtain ⟨done, held, hstate⟩ := within.state
    have hcount := ChunkState.count_eq hstate
    have hpos := List.length_pos_iff.mpr within.part_ne
    have hle := within.part_le
    rw [List.length_append] at hsize
    obtain ⟨state, done', held', hupdate, hstate'⟩ := ChunkState.update_holds hstate
      (input.take (min (1024 - part.length) input.length))
    have htake : (input.take (min (1024 - part.length) input.length)).length =
        min (1024 - part.length) input.length := by
      rw [List.length_take]
      omega
    have hfinish : finishChunk platform hasher input =
        if input.drop (min (1024 - part.length) input.length) = [] then
          some ({ hasher with chunkState := state },
            input.drop (min (1024 - part.length) input.length), true)
        else (pushCv platform { hasher with chunkState := state }
          (state.output.chainingValue platform) state.chunkCounter).bind fun hasher =>
            some ({ hasher with
              chunkState := .new hasher.key (state.chunkCounter + 1) state.flags },
              input.drop (min (1024 - part.length) input.length), false) := by
      rw [finishChunk, if_pos (by omega)]
      simp only [hcount, CHUNK_LEN, hupdate, Option.bind_eq_bind, Option.bind_some]
    rw [hfinish]
    by_cases hend : input.drop (min (1024 - part.length) input.length) = []
    · -- The input ends in the chunk.
      have hall : input.take (min (1024 - part.length) input.length) = input :=
        List.take_of_length_le (List.drop_eq_nil_iff.mp hend)
      rw [hall] at hstate' htake
      refine ⟨{ hasher with chunkState := state }, ?_, ?_⟩
      · rw [if_pos hend]
        rfl
      · rw [List.append_assoc]
        refine Holds.inside ⟨within.key_eq, ?_, ?_, within.dvd, ⟨done', held', hstate'⟩,
          within.stack_eq⟩
        · rw [← List.length_pos_iff, List.length_append]
          omega
        · rw [List.length_append]
          omega
    · have hmore : ¬input.length ≤ min (1024 - part.length) input.length :=
        fun hle => hend (List.drop_of_length_le hle)
      have hfull : (part ++ input.take (min (1024 - part.length) input.length)).length =
          1024 := by
        rw [List.length_append]
        omega
      obtain ⟨next, hpush, hboundary⟩ := pushChunk_holds within.key_eq within.dvd
        within.stack_eq hstate' hfull (by omega)
      have hdrop : (input.drop (min (1024 - part.length) input.length)).length =
          input.length - min (1024 - part.length) input.length := List.length_drop
      obtain ⟨last, habsorb, hlast⟩ := absorb_holds valid hboundary hend
        (by rw [List.length_append, hfull]; omega)
      refine ⟨last, ?_, ?_⟩
      · rw [if_neg hend, hpush, Option.bind_some]
        exact habsorb
      · rw [List.append_assoc, List.append_assoc, List.take_append_drop,
          ← List.append_assoc] at hlast
        exact hlast

/-! ## The result -/

theorem holds_new : Holds platform key flags (newInternal key flags) [] :=
  Holds.boundary ⟨rfl, Nat.dvd_zero _, Pushed.empty⟩ (by simp [newInternal])

end Hasher

/-! ## Runs -/

/-- What is done with a hasher, `finalize` as often as wanted. -/
inductive Action where
  | update (input : Bytes)
  | finalize
  deriving DecidableEq, Repr

def run (platform : Platform) : Hasher → List Action → Option (Hasher × List Cv)
  | hasher, [] => some (hasher, [])
  | hasher, .update input :: actions => do
      let next ← hasher.update platform input
      run platform next actions
  | hasher, .finalize :: actions => do
      let digest ← hasher.finalize platform
      let (last, digests) ← run platform hasher actions
      some (last, digest :: digests)

def digests (treeHash : Bytes → Cv) : Bytes → List Action → List Cv
  | _, [] => []
  | message, .update input :: actions => digests treeHash (message ++ input) actions
  | message, .finalize :: actions => treeHash message :: digests treeHash message actions

inductive Mode where
  | hash
  | keyed (key : FixedBytes 32)
  | deriveKey (context : Bytes)

def Mode.parameters (platform : Platform) : Mode → Words 32 × UInt8
  | .hash => (IV, 0)
  | .keyed key => (wordsFromLeBytes key, KEYED_HASH)
  | .deriveKey context =>
    (wordsFromLeBytes (treeHash platform IV DERIVE_KEY_CONTEXT context), DERIVE_KEY_MATERIAL)

def Mode.digest (platform : Platform) (mode : Mode) (message : Bytes) : Cv :=
  treeHash platform (mode.parameters platform).1 (mode.parameters platform).2 message

/-- `Hasher::new`, `new_keyed` and `new_derive_key`. -/
def Mode.hasher (platform : Platform) : Mode → Option Hasher
  | .hash => some Hasher.new
  | .keyed key => some (Hasher.newKeyed key)
  | .deriveKey context => Hasher.newDeriveKey platform context

def Mode.oneShot (platform : Platform) : Mode → Bytes → Option Cv
  | .hash, message => Blake3.hash platform message
  | .keyed key, message => keyedHash platform key message
  | .deriveKey context, message => Blake3.deriveKey platform context message

end Stdx.Hashes.Blake3
