import Stdx.Foundation.BlockFold
import Stdx.Foundation.Padding

/-!
# SHA-256 and SHA-512

The two hashers of `crypto/src/sha2` are one program with two block sizes.  They keep
the chaining words, a buffer for an incomplete block and a byte counter that wraps.
The function that compresses one block is a parameter: the portable one and the ones
for the instruction sets are called on the same blocks in the same order.
-/

namespace Stdx.Hashes

open Stdx.Foundation

/-- `Hash`, a `Bytes<64>` -/
abbrev Hash := BoundedBytes 64

abbrev Words (w : Nat) := List.Vector (BitVec w) 8

/-- `word.to_be_bytes()` -/
def beBytes {w : Nat} (word : BitVec w) : Bytes := fixedOctets (w / 8) word.toNat

/-- `block` is the length of a block and `field` that of the bit length behind the
padding, both in octets; `word` is the width of a chaining word in bits. -/
structure Variant where
  block : Nat
  field : Nat
  word : Nat
  field_lt : field < block
  word_le : word / 8 * 8 ≤ 64

/-- The compression function and whether the instructions for it are there. -/
structure Backend (v : Variant) where
  hasShaExt : Bool
  compress : Bool → Words v.word → Bytes → Words v.word

structure Sha2 (v : Variant) where
  state : Words v.word
  buffer : FixedBytes v.block
  bufferLen : Nat
  totalLen : BitVec (8 * v.field)
  backend : Backend v

namespace Sha2

variable {v : Variant}

/-- `for block in data.as_chunks().0` -/
def compressBlocks (backend : Backend v) (state : Words v.word) (data : Bytes) :
    Words v.word :=
  foldBlocks v.block (fun _ => backend.compress backend.hasShaExt) (data.length / v.block)
    state data

def init (iv : Words v.word) (backend : Backend v) : Sha2 v :=
  ⟨iv, .zeroed v.block, 0, 0, backend⟩

def absorbRest (hasher : Sha2 v) (data : Bytes) : Option (Sha2 v) := do
  let fullLen := data.length - data.length % v.block
  let state := if fullLen > 0
    then compressBlocks hasher.backend hasher.state (data.take fullLen)
    else hasher.state
  let remainder := data.drop fullLen
  if remainder = [] then some { hasher with state := state }
  else
    let buffer ← hasher.buffer.copyInto 0 remainder
    some { hasher with state := state, buffer := buffer, bufferLen := remainder.length }

def update (hasher : Sha2 v) (data : Bytes) : Option (Sha2 v) :=
  let totalLen := hasher.totalLen + BitVec.ofNat (8 * v.field) data.length
  if hasher.bufferLen > 0 then do
    let toFill := min (v.block - hasher.bufferLen) data.length
    let buffer ← hasher.buffer.copyInto hasher.bufferLen (data.take toFill)
    let bufferLen := hasher.bufferLen + toFill
    if bufferLen = v.block then
      let state := compressBlocks hasher.backend hasher.state buffer.octets
      absorbRest ⟨state, buffer, 0, totalLen, hasher.backend⟩ (data.drop toFill)
    else
      absorbRest ⟨hasher.state, buffer, bufferLen, totalLen, hasher.backend⟩ (data.drop toFill)
  else absorbRest { hasher with totalLen := totalLen } data

def updates (hasher : Sha2 v) : List Bytes → Option (Sha2 v)
  | [] => some hasher
  | data :: rest => do updates (← hasher.update data) rest

def finalTail (hasher : Sha2 v) : Option Bytes := do
  let bitLen := hasher.totalLen * 8
  let tail := FixedBytes.zeroed (2 * v.block)
  let tail ← tail.copyInto 0 (← hasher.buffer.upTo hasher.bufferLen)
  let tail ← tail.copyInto hasher.bufferLen [0x80]
  let paddingLen := if hasher.bufferLen < v.block - v.field
    then v.block - v.field - hasher.bufferLen
    else 2 * v.block - v.field - hasher.bufferLen
  let lengthOffset := hasher.bufferLen + paddingLen
  let tail ← tail.copyInto lengthOffset (fixedOctets v.field bitLen.toNat)
  tail.upTo (lengthOffset + v.field)

def sum (hasher : Sha2 v) : Option Hash := do
  let tail ← hasher.finalTail
  let state := compressBlocks hasher.backend hasher.state tail
  (BoundedBytes.new : Hash).appendAll (state.toList.map beBytes)

end Sha2

def SHA256 : Variant := ⟨64, 8, 32, by decide, by decide⟩
def SHA512 : Variant := ⟨128, 16, 64, by decide, by decide⟩

def Sha256.IV : Words SHA256.word :=
  ⟨[0x6a09e667, 0xbb67ae85, 0x3c6ef372, 0xa54ff53a, 0x510e527f, 0x9b05688c, 0x1f83d9ab,
    0x5be0cd19], rfl⟩

def Sha512.IV : Words SHA512.word :=
  ⟨[0x6a09e667f3bcc908, 0xbb67ae8584caa73b, 0x3c6ef372fe94f82b, 0xa54ff53a5f1d36f1,
    0x510e527fade682d1, 0x9b05688c2b3e6c1f, 0x1f83d9abfb41bd6b, 0x5be0cd19137e2179], rfl⟩

def Sha256.new (backend : Backend SHA256) : Sha2 SHA256 := Sha2.init Sha256.IV backend
def Sha512.new (backend : Backend SHA512) : Sha2 SHA512 := Sha2.init Sha512.IV backend

/-! ## FIPS 180-4 -/

/-- The padding of section 5.1: a one bit, the fewest zeros that let the bit length in
`field` octets end on a block boundary, and the bit length. -/
def fipsPad (v : Variant) (message : Bytes) : Bytes :=
  message ++ [0x80] ++ List.replicate (padLength v.block (message.length + 1 + v.field)) 0 ++
    fixedOctets v.field (8 * message.length)

def fipsDigest (v : Variant) (compress : Words v.word → Bytes → Words v.word)
    (iv : Words v.word) (message : Bytes) : Bytes :=
  let padded := fipsPad v message
  let state := foldBlocks v.block (fun _ => compress) (padded.length / v.block) iv padded
  state.toList.flatMap beBytes

theorem fipsPad_length_dvd (v : Variant) (message : Bytes) :
    v.block ∣ (fipsPad v message).length := by
  have hpos : 0 < v.block := Nat.lt_of_le_of_lt (Nat.zero_le _) v.field_lt
  have hlength : (fipsPad v message).length = message.length + 1 + v.field +
      padLength v.block (message.length + 1 + v.field) := by
    simp [fipsPad]
    omega
  rw [hlength, padLength]
  have hmod := Nat.mod_lt (message.length + 1 + v.field) hpos
  have hdiv := Nat.div_add_mod (message.length + 1 + v.field) v.block
  generalize message.length + 1 + v.field = n at *
  rcases Nat.eq_zero_or_pos (n % v.block) with hzero | hne
  · rw [hzero, Nat.sub_zero, Nat.mod_self, Nat.add_zero]
    exact Nat.dvd_of_mod_eq_zero hzero
  · rw [Nat.mod_eq_of_lt (by omega)]
    refine ⟨n / v.block + 1, ?_⟩
    rw [Nat.mul_succ]
    omega

theorem beValue_lengthField (v : Variant) {message : Bytes}
    (h : 8 * message.length < 256 ^ v.field) :
    beValue ((fipsPad v message).drop ((fipsPad v message).length - v.field)) =
      8 * message.length := by
  have hdrop : (fipsPad v message).drop ((fipsPad v message).length - v.field) =
      fixedOctets v.field (8 * message.length) := by
    rw [fipsPad, List.length_append, fixedOctets_length, Nat.add_sub_cancel]
    exact List.drop_left
  rw [hdrop, beValue_fixedOctets, Nat.mod_eq_of_lt h]

/-! ## Streaming -/

namespace Sha2

variable {v : Variant}

theorem block_pos (v : Variant) : 0 < v.block :=
  Nat.lt_of_le_of_lt (Nat.zero_le _) v.field_lt

structure Holds (hasher : Sha2 v) (iv : Words v.word) (backend : Backend v)
    (message whole tail : Bytes) : Prop where
  split : EagerSplit v.block message whole tail
  bufferLen_eq : hasher.bufferLen = tail.length
  buffered : hasher.buffer.octets.take tail.length = tail
  state_eq : hasher.state = compressBlocks backend iv whole
  totalLen_eq : hasher.totalLen = BitVec.ofNat (8 * v.field) message.length
  backend_eq : hasher.backend = backend

theorem compressBlocks_append (backend : Backend v) (iv : Words v.word) {front : Bytes}
    (back : Bytes) (h : v.block ∣ front.length) :
    compressBlocks backend iv (front ++ back) =
      compressBlocks backend (compressBlocks backend iv front) back := by
  obtain ⟨count, hcount⟩ := h
  have hpos := block_pos v
  have hfront : front.length / v.block = count := by
    rw [hcount, Nat.mul_div_cancel_left _ hpos]
  have hboth : (front ++ back).length / v.block = count + back.length / v.block := by
    rw [List.length_append, hcount, Nat.mul_add_div hpos]
  rw [compressBlocks, compressBlocks, compressBlocks, hboth, hfront,
    foldBlocks_append_right back hcount]

theorem compressBlocks_short (backend : Backend v) (iv : Words v.word) {data : Bytes}
    (h : data.length < v.block) : compressBlocks backend iv data = iv := by
  rw [compressBlocks, Nat.div_eq_of_lt h, foldBlocks_zero]

theorem holds_init (iv : Words v.word) (backend : Backend v) :
    (init iv backend).Holds iv backend [] [] [] :=
  ⟨EagerSplit.nil (block_pos v), rfl, rfl,
    (@compressBlocks_short v backend iv [] (block_pos v)).symm, rfl, rfl⟩

theorem totalLen_append {message data : Bytes} :
    BitVec.ofNat (8 * v.field) message.length + BitVec.ofNat (8 * v.field) data.length =
      BitVec.ofNat (8 * v.field) (message ++ data).length := by
  rw [List.length_append, BitVec.ofNat_add]

theorem absorbRest_holds {hasher : Sha2 v} {iv : Words v.word} {backend : Backend v}
    {whole data : Bytes} (hdvd : v.block ∣ whole.length) (hbuffer : hasher.bufferLen = 0)
    (hstate : hasher.state = compressBlocks backend iv whole)
    (htotal : hasher.totalLen = BitVec.ofNat (8 * v.field) (whole ++ data).length)
    (hbackend : hasher.backend = backend) :
    ∃ hasher' whole' tail', hasher.absorbRest data = some hasher' ∧
      hasher'.Holds iv backend (whole ++ data) whole' tail' := by
  obtain ⟨fullLen, hfull⟩ : ∃ fullLen, data.length - data.length % v.block = fullLen :=
    ⟨_, rfl⟩
  have hmod := Nat.mod_lt data.length (block_pos v)
  have hle : fullLen ≤ data.length := by omega
  have hfulldvd : v.block ∣ fullLen := by
    rw [← hfull]
    exact Nat.dvd_sub_mod _
  have htake : (data.take fullLen).length = fullLen := by
    rw [List.length_take]
    omega
  have hrest : (data.drop fullLen).length < v.block := by
    rw [List.length_drop]
    omega
  -- The compression is skipped when there is no whole block.
  have hskip : (if fullLen > 0 then
      compressBlocks hasher.backend hasher.state (data.take fullLen) else hasher.state) =
      compressBlocks backend iv (whole ++ data.take fullLen) := by
    rw [compressBlocks_append backend iv _ hdvd, ← hstate, hbackend]
    split
    · rfl
    · next hnone =>
      exact (compressBlocks_short backend _ (by
        rw [htake]
        have := block_pos v
        omega)).symm
  have hsplit : EagerSplit v.block (whole ++ data) (whole ++ data.take fullLen)
      (data.drop fullLen) := by
    refine ⟨by rw [List.append_assoc, List.take_append_drop], ?_, hrest⟩
    rw [List.length_append, htake]
    exact Nat.dvd_add hdvd hfulldvd
  simp only [absorbRest, hfull, hskip, Option.bind_eq_bind]
  split
  · next hnil =>
    refine ⟨_, _, data.drop fullLen, rfl, hsplit, ?_, ?_, rfl, htotal, hbackend⟩
    · rw [hnil]
      exact hbuffer
    · rw [hnil]
      rfl
  · next hne =>
    obtain ⟨buffer, hcopy, hbuffered⟩ := @FixedBytes.copyInto_take v.block hasher.buffer 0
      (data.drop fullLen) (by omega)
    rw [hcopy, Option.bind_some]
    refine ⟨_, _, data.drop fullLen, rfl, hsplit, rfl, ?_, rfl, htotal, hbackend⟩
    simpa using hbuffered

theorem update_holds {hasher : Sha2 v} {iv : Words v.word} {backend : Backend v}
    {message whole tail : Bytes} (h : hasher.Holds iv backend message whole tail)
    (data : Bytes) :
    ∃ hasher' whole' tail', hasher.update data = some hasher' ∧
      hasher'.Holds iv backend (message ++ data) whole' tail' := by
  have htotal : hasher.totalLen + BitVec.ofNat (8 * v.field) data.length =
      BitVec.ofNat (8 * v.field) (message ++ data).length := by
    rw [h.totalLen_eq, totalLen_append]
  have hlen := h.bufferLen_eq
  have hshort := h.split.short
  by_cases hbuffer : hasher.bufferLen > 0
  · obtain ⟨toFill, hto⟩ : ∃ toFill, min (v.block - hasher.bufferLen) data.length = toFill :=
      ⟨_, rfl⟩
    have hfilled : (data.take toFill).length = toFill := by
      rw [List.length_take]
      omega
    obtain ⟨buffer, hcopy, hbuffered⟩ := @FixedBytes.copyInto_take v.block hasher.buffer
      hasher.bufferLen (data.take toFill) (by omega)
    rw [hfilled, hlen, h.buffered] at hbuffered
    simp only [update, hbuffer, if_true, hto, hcopy, Option.bind_eq_bind, Option.bind_some]
    split
    · next hfull =>
      -- The buffer is the tail and what was copied: one whole block.
      have hblock : buffer.octets = tail ++ data.take toFill := by
        rw [← hbuffered, List.take_of_length_le (by rw [buffer.length_eq]; omega)]
      have hdvd : v.block ∣ (whole ++ buffer.octets).length := by
        rw [List.length_append, buffer.length_eq]
        exact Nat.dvd_add h.split.dvd (Nat.dvd_refl _)
      have hmessage : message ++ data = (whole ++ buffer.octets) ++ data.drop toFill := by
        rw [h.split.eq, hblock]
        simp [List.append_assoc, List.take_append_drop]
      rw [hmessage] at htotal ⊢
      refine absorbRest_holds hdvd rfl ?_ htotal h.backend_eq
      rw [compressBlocks_append _ _ _ h.split.dvd, ← h.state_eq, h.backend_eq]
    · next hpart =>
      -- The data end in the buffer, and nothing is left.
      have hall : data.length ≤ toFill := by omega
      have hdrop : data.drop toFill = [] := List.drop_of_length_le hall
      have htake : data.take toFill = data := List.take_of_length_le hall
      rw [hdrop]
      refine ⟨_, whole, tail ++ data, rfl, h.split.grow (by rw [htake] at hfilled; omega),
        ?_, ?_, ?_, htotal, h.backend_eq⟩
      · rw [htake] at hfilled
        simp [hlen, hfilled]
      · rw [htake] at hbuffered hfilled
        rw [List.length_append, hfilled]
        exact hbuffered
      · simpa using h.state_eq
  · have hzero : tail = [] := List.length_eq_zero_iff.mp (by omega)
    have hwhole : message = whole := by
      rw [h.split.eq, hzero, List.append_nil]
    simp only [update, hbuffer, if_false]
    rw [hwhole] at htotal ⊢
    refine absorbRest_holds h.split.dvd ?_ h.state_eq htotal h.backend_eq
    show hasher.bufferLen = 0
    omega

/-- Any sequence of calls leaves what one call with all the octets would. -/
theorem updates_holds {iv : Words v.word} {backend : Backend v} (parts : List Bytes) :
    ∀ {hasher : Sha2 v} {message whole tail : Bytes},
      hasher.Holds iv backend message whole tail →
      ∃ hasher' whole' tail', hasher.updates parts = some hasher' ∧
        hasher'.Holds iv backend (message ++ parts.flatten) whole' tail' := by
  induction parts with
  | nil =>
    intro hasher message whole tail h
    exact ⟨hasher, whole, tail, rfl, by simpa using h⟩
  | cons data rest ih =>
    intro hasher message whole tail h
    obtain ⟨next, whole', tail', hupdate, hnext⟩ := update_holds h data
    obtain ⟨last, whole'', tail'', hrest, hlast⟩ := ih hnext
    refine ⟨last, whole'', tail'', ?_, ?_⟩
    · rw [updates, hupdate]
      exact hrest
    · rwa [List.flatten_cons, ← List.append_assoc]

/-! ## Padding -/

theorem paddingLen_eq {whole n : Nat} (hdvd : v.block ∣ whole) (hn : n < v.block) :
    n + (if n < v.block - v.field then v.block - v.field - n
      else 2 * v.block - v.field - n) =
      n + 1 + padLength v.block (whole + n + 1 + v.field) := by
  have hfield := v.field_lt
  obtain ⟨count, rfl⟩ := hdvd
  have hmod : (v.block * count + n + 1 + v.field) % v.block =
      (n + 1 + v.field) % v.block := by
    rw [Nat.add_assoc, Nat.add_assoc, Nat.mul_add_mod, ← Nat.add_assoc]
  rw [padLength, hmod]
  rcases Nat.lt_trichotomy (n + 1 + v.field) v.block with hlt | heq | hgt
  · rw [if_pos (by omega), Nat.mod_eq_of_lt hlt, Nat.mod_eq_of_lt (by omega)]
    omega
  · rw [if_pos (by omega), heq, Nat.mod_self, Nat.sub_zero, Nat.mod_self]
    omega
  · have hrest : (n + 1 + v.field) % v.block = n + 1 + v.field - v.block := by
      rw [Nat.mod_eq_sub_mod (by omega), Nat.mod_eq_of_lt (by omega)]
    rw [if_neg (by omega), hrest, Nat.mod_eq_of_lt (by omega)]
    omega

theorem bitLen_octets (message : Bytes) :
    fixedOctets v.field (BitVec.ofNat (8 * v.field) message.length * 8).toNat =
      fixedOctets v.field (8 * message.length) := by
  refine beValue_inj (by simp) ?_
  have hpow : 2 ^ (8 * v.field) = 256 ^ v.field := by
    rw [pow_mul]
    norm_num
  have hbits : BitVec.ofNat (8 * v.field) message.length * 8 =
      BitVec.ofNat (8 * v.field) (message.length * 8) := (BitVec.ofNat_mul _ _).symm
  rw [beValue_fixedOctets, beValue_fixedOctets, hbits, BitVec.toNat_ofNat, hpow, Nat.mod_mod,
    Nat.mul_comm 8]

theorem finalTail_eq {hasher : Sha2 v} {iv : Words v.word} {backend : Backend v}
    {message whole tail : Bytes} (h : hasher.Holds iv backend message whole tail) :
    ∃ last, hasher.finalTail = some last ∧ whole ++ last = fipsPad v message := by
  have hfield := v.field_lt
  have hshort := h.split.short
  have hlen := h.bufferLen_eq
  obtain ⟨pad, hpad⟩ : ∃ pad, padLength v.block (message.length + 1 + v.field) = pad :=
    ⟨_, rfl⟩
  have hpadding := paddingLen_eq (v := v) h.split.dvd hshort
  have hmessage : whole.length + tail.length = message.length := by
    rw [h.split.eq, List.length_append]
  rw [hmessage, hpad] at hpadding
  have hbound : tail.length + 1 + pad + v.field ≤ 2 * v.block := by
    rw [← hpadding]
    split <;> omega
  obtain ⟨first, hfirst, hfirst'⟩ := @FixedBytes.copyInto_zeros (2 * v.block) (.zeroed _) []
    (2 * v.block) rfl 0 tail (by omega)
  simp only [List.nil_append, List.replicate_zero, Nat.zero_add, List.length_nil] at hfirst hfirst'
  obtain ⟨second, hsecond, hsecond'⟩ := @FixedBytes.copyInto_zeros _ _ _ _ hfirst' 0 [0x80]
    (by rw [List.length_singleton]; omega)
  simp only [List.replicate_zero, List.append_nil, Nat.add_zero, List.length_singleton,
    Nat.zero_add] at hsecond hsecond'
  obtain ⟨third, hthird, hthird'⟩ := @FixedBytes.copyInto_zeros _ _ _ _ hsecond' pad
    (fixedOctets v.field (8 * message.length)) (by rw [fixedOctets_length]; omega)
  rw [List.length_append, List.length_singleton] at hthird
  refine ⟨tail ++ [0x80] ++ List.replicate pad 0 ++ fixedOctets v.field (8 * message.length),
    ?_, ?_⟩
  · simp only [finalTail, hlen, hpadding, Option.bind_eq_bind]
    rw [FixedBytes.upTo_eq _ (by omega), h.buffered, Option.bind_some, hfirst,
      Option.bind_some, hsecond, Option.bind_some, h.totalLen_eq, bitLen_octets, hthird,
      Option.bind_some, FixedBytes.upTo_eq _ hbound, hthird']
    congr 1
    rw [List.take_append_of_le_length (by simp; omega), List.take_of_length_le (by simp; omega)]
  · rw [fipsPad, hpad, h.split.eq]
    simp only [List.append_assoc]

theorem beBytes_length {w : Nat} (words : List (BitVec w)) :
    (words.flatMap beBytes).length = words.length * (w / 8) := by
  induction words with
  | nil => simp
  | cons word words ih =>
    rw [List.flatMap_cons, List.length_append, ih, List.length_cons, Nat.succ_mul, beBytes,
      fixedOctets_length, Nat.add_comm]

theorem sum_holds {hasher : Sha2 v} {iv : Words v.word} {backend : Backend v}
    {message whole tail : Bytes} (h : hasher.Holds iv backend message whole tail) :
    ∃ hash, hasher.sum = some hash ∧
      hash.octets = fipsDigest v (backend.compress backend.hasShaExt) iv message := by
  obtain ⟨last, hlast, hpadded⟩ := finalTail_eq h
  have hstate : compressBlocks hasher.backend hasher.state last =
      compressBlocks backend iv (fipsPad v message) := by
    rw [h.backend_eq, h.state_eq, ← compressBlocks_append _ _ _ h.split.dvd, hpadded]
  have hword := v.word_le
  obtain ⟨hash, happend, hoctets⟩ := @BoundedBytes.appendAll_eq 64
    ((compressBlocks backend iv (fipsPad v message)).toList.map beBytes) .new (by
      rw [← List.flatMap_def, beBytes_length, List.Vector.toList_length]
      show 0 + 8 * (v.word / 8) ≤ 64
      omega)
  refine ⟨hash, ?_, ?_⟩
  · rw [sum, hlast]
    show (BoundedBytes.new : Hash).appendAll ((compressBlocks _ _ last).toList.map beBytes) =
        some hash
    rw [hstate, happend]
  · rw [hoctets, ← List.flatMap_def]
    rfl

theorem digest_streams (iv : Words v.word) (backend : Backend v) (parts : List Bytes) :
    ∃ hash, ((init iv backend).updates parts).bind sum = some hash ∧ hash.octets =
      fipsDigest v (backend.compress backend.hasShaExt) iv parts.flatten := by
  obtain ⟨hasher, whole, tail, hupdates, hholds⟩ := updates_holds parts (holds_init iv backend)
  obtain ⟨hash, hsum, hoctets⟩ := sum_holds hholds
  exact ⟨hash, by rw [hupdates]; exact hsum, hoctets⟩

end Sha2

end Stdx.Hashes
