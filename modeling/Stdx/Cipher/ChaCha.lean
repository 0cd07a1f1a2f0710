import Mathlib
import Stdx.Foundation.LittleEndian
import Stdx.Foundation.Loop
import Stdx.Foundation.Keystream

/-!
# ChaCha

The stream cipher of `crypto/src/chacha/chacha.rs`, on its portable path.  The
parameters are those of the source's type: the number of rounds, and whether the
counter has 32 bits (`IS_IETF`) or 64.  Of the last block of a call the unused octets
are kept for the next call; `none` is the assertion that the 32-bit counter is spent.
-/

namespace Stdx.Cipher

open Stdx.Foundation

def BLOCK_SIZE : Nat := 64
def U32_MAX : Nat := 2 ^ 32 - 1

def CHACHA20_IETF_MAX_LEN : Nat := (U32_MAX - 1) * BLOCK_SIZE

def CONSTANT : Vector UInt32 4 := #v[0x61707865, 0x3320646e, 0x79622d32, 0x6b206574]

abbrev State := Vector UInt32 16

/-! ## Blocks -/

def rotateLeft (word n : UInt32) : UInt32 := (word <<< n) ||| (word >>> (32 - n))

def quarterRound (state : State) (a b c d : Fin 16) : State :=
  let state := state.set a (state[a] + state[b])
  let state := state.set d (state[d] ^^^ state[a])
  let state := state.set d (rotateLeft state[d] 16)
  let state := state.set c (state[c] + state[d])
  let state := state.set b (state[b] ^^^ state[c])
  let state := state.set b (rotateLeft state[b] 12)
  let state := state.set a (state[a] + state[b])
  let state := state.set d (state[d] ^^^ state[a])
  let state := state.set d (rotateLeft state[d] 8)
  let state := state.set c (state[c] + state[d])
  let state := state.set b (state[b] ^^^ state[c])
  state.set b (rotateLeft state[b] 7)

def doubleRound (state : State) : State :=
  let state := quarterRound state 0 4 8 12
  let state := quarterRound state 1 5 9 13
  let state := quarterRound state 2 6 10 14
  let state := quarterRound state 3 7 11 15
  let state := quarterRound state 0 5 10 15
  let state := quarterRound state 1 6 11 12
  let state := quarterRound state 2 7 8 13
  quarterRound state 3 4 9 14

def keystreamBlock (ROUNDS : Nat) (state : State) : FixedBytes 64 where
  octets :=
    let tmp := forRange 0 (ROUNDS / 2) (fun _ tmp => doubleRound tmp) state
    (List.ofFn fun i : Fin 16 => leOctets 4 (tmp[i] + state[i]).toNat).flatten
  length_eq := by simp [List.ofFn_succ]

/-- `u32::from_le_bytes` of four octets of an array -/
def wordAt (octets : Bytes) (i : Nat) : UInt32 :=
  UInt32.ofNat (leValue ((octets.drop i).take 4))

structure ChaCha (ROUNDS : Nat) (IS_IETF : Bool) where
  state : State
  keystreamLeftover : FixedBytes 63
  keystreamLeftoverOffset : Nat

def nonceSize (IS_IETF : Bool) : Nat := if IS_IETF then 12 else 8
def counterBits (IS_IETF : Bool) : Nat := if IS_IETF then 32 else 64

def extractCounter (IS_IETF : Bool) (state : State) : Nat :=
  if IS_IETF then state[12].toNat
  else (state[13].toNat <<< 32) ||| state[12].toNat

def injectCounter (IS_IETF : Bool) (state : State) (counter : Nat) : State :=
  let state := state.set 12 (UInt32.ofNat counter)
  if IS_IETF then state else state.set 13 (UInt32.ofNat (counter >>> 32))

def initialState (IS_IETF : Bool) (key : FixedBytes 32)
    (nonce : FixedBytes (nonceSize IS_IETF)) : State :=
  let k := key.octets
  let n := nonce.octets
  let tail : Vector UInt32 4 :=
    if IS_IETF then #v[0, wordAt n 0, wordAt n 4, wordAt n 8]
    else #v[0, 0, wordAt n 0, wordAt n 4]
  CONSTANT ++ #v[wordAt k 0, wordAt k 4, wordAt k 8, wordAt k 12, wordAt k 16,
    wordAt k 20, wordAt k 24, wordAt k 28] ++ tail

def genericBlocks (ROUNDS : Nat) (IS_IETF : Bool) :
    Nat → State → Nat → FixedBytes 64 → Bytes → State × Nat × FixedBytes 64 × Bytes
  | 0, state, counter, keystream, _ => (state, counter, keystream, [])
  | count + 1, state, counter, _, plaintext =>
    let state := injectCounter IS_IETF state counter
    let keystream := keystreamBlock ROUNDS state
    let block := List.zipWith (· ^^^ ·) (plaintext.take 64) keystream.octets
    let (state, counter, keystream, rest) := genericBlocks ROUNDS IS_IETF count state
      ((counter + 1) % 2 ^ 64) keystream (plaintext.drop 64)
    (state, counter, keystream, block ++ rest)

def chachaGeneric (ROUNDS : Nat) (IS_IETF : Bool) (state : State)
    (keystreamLeftover : FixedBytes 63) (plaintext : Bytes) :
    State × FixedBytes 63 × Bytes :=
  let counter := extractCounter IS_IETF state
  let (state, counter, keystream, output) := genericBlocks ROUNDS IS_IETF
    ((plaintext.length + 63) / 64) state counter (.zeroed 64) plaintext
  let state := injectCounter IS_IETF state counter
  let keystreamLeftover :=
    if plaintext.length % 64 = 0 then keystreamLeftover
    else ⟨keystream.octets.drop 1, by simp [keystream.length_eq]⟩
  (state, keystreamLeftover, output)

namespace ChaCha

variable {ROUNDS : Nat} {IS_IETF : Bool}

def new (key : FixedBytes 32) (nonce : FixedBytes (nonceSize IS_IETF)) :
    ChaCha ROUNDS IS_IETF :=
  ⟨initialState IS_IETF key nonce, .zeroed 63, BLOCK_SIZE - 1⟩

def setCounter (cipher : ChaCha ROUNDS IS_IETF) (counter : BitVec (counterBits IS_IETF)) :
    ChaCha ROUNDS IS_IETF :=
  { cipher with
    state := injectCounter IS_IETF cipher.state counter.toNat
    keystreamLeftoverOffset := BLOCK_SIZE - 1 }

def leftoverLen (cipher : ChaCha ROUNDS IS_IETF) : Nat :=
  if cipher.keystreamLeftoverOffset < BLOCK_SIZE - 1
    then (BLOCK_SIZE - 1) - cipher.keystreamLeftoverOffset else 0

/-- The assertion of the 32-bit layout, before anything is written. -/
def exhausted (cipher : ChaCha ROUNDS IS_IETF) (length : Nat) : Bool :=
  let newBlocks := (length - cipher.leftoverLen + 63) / BLOCK_SIZE
  IS_IETF && decide (U32_MAX < extractCounter IS_IETF cipher.state + newBlocks)

def xorBlocks (cipher : ChaCha ROUNDS IS_IETF) (inOut : Bytes) :
    ChaCha ROUNDS IS_IETF × Bytes :=
  let (state, keystreamLeftover, output) :=
    chachaGeneric ROUNDS IS_IETF cipher.state cipher.keystreamLeftover inOut
  (⟨state, keystreamLeftover, (inOut.length + BLOCK_SIZE - 1) % BLOCK_SIZE⟩, output)

def xorKeystream (cipher : ChaCha ROUNDS IS_IETF) (inOut : Bytes) :
    Option (ChaCha ROUNDS IS_IETF × Bytes) :=
  if inOut.length = 0 then some (cipher, inOut)
  else if cipher.exhausted inOut.length then none
  else if cipher.keystreamLeftoverOffset < BLOCK_SIZE - 1 then
    let leftover := cipher.keystreamLeftover.octets.drop cipher.keystreamLeftoverOffset
    let front := List.zipWith (· ^^^ ·) inOut leftover
    if inOut.length > leftover.length then
      let (cipher, back) := cipher.xorBlocks (inOut.drop leftover.length)
      some (cipher, front ++ back)
    else if inOut.length < leftover.length then
      some ({ cipher with keystreamLeftoverOffset :=
        cipher.keystreamLeftoverOffset + inOut.length }, front)
    else some ({ cipher with keystreamLeftoverOffset := BLOCK_SIZE - 1 }, front)
  else some (cipher.xorBlocks inOut)

def xorKeystreams (cipher : ChaCha ROUNDS IS_IETF) :
    List Bytes → Option (ChaCha ROUNDS IS_IETF × List Bytes)
  | [] => some (cipher, [])
  | inOut :: rest => do
      let (cipher, output) ← cipher.xorKeystream inOut
      let (cipher, outputs) ← cipher.xorKeystreams rest
      some (cipher, output :: outputs)

end ChaCha

def hchacha20 (key : FixedBytes 32) (input : FixedBytes 16) : FixedBytes 32 where
  octets :=
    let k := key.octets
    let n := input.octets
    let state : State := CONSTANT ++ #v[wordAt k 0, wordAt k 4, wordAt k 8, wordAt k 12,
      wordAt k 16, wordAt k 20, wordAt k 24, wordAt k 28] ++
      #v[wordAt n 0, wordAt n 4, wordAt n 8, wordAt n 12]
    let state := forRange 0 10 (fun _ state => doubleRound state) state
    (List.ofFn fun i : Fin 4 => leOctets 4 state[i.val].toNat).flatten ++
      (List.ofFn fun i : Fin 4 => leOctets 4 state[12 + i.val].toNat).flatten
  length_eq := by simp [List.ofFn_succ]

end Stdx.Cipher

/-!
## ChaCha as an additive stream

The state of a cipher is a position in the stream of its key, nonce and starting
counter.  Each call of `xor_keystream` moves the position by the length of its input.
-/

namespace Stdx.Cipher

open Stdx.Foundation

/-! ## The counter -/

section Counter

variable {IS_IETF : Bool}

theorem injectCounter_injectCounter (state : State) (c c' : Nat) :
    injectCounter IS_IETF (injectCounter IS_IETF state c) c' =
      injectCounter IS_IETF state c' := by
  cases IS_IETF with
  | true => simp [injectCounter]
  | false =>
    simp only [injectCounter, Bool.false_eq_true, if_false]
    rw [Vector.set_comm _ _ (show (13 : Nat) ≠ 12 by decide), Vector.set_set,
      Vector.set_set]

theorem ofNat_toNat_mod (n : Nat) : (UInt32.ofNat n).toNat = n % 2 ^ 32 := by
  simp

theorem extractCounter_injectCounter (state : State) (c : Nat) :
    extractCounter IS_IETF (injectCounter IS_IETF state c) = c % 2 ^ counterBits IS_IETF := by
  cases IS_IETF with
  | true => simp [extractCounter, injectCounter, counterBits]
  | false =>
    simp only [extractCounter, injectCounter, counterBits, Bool.false_eq_true, if_false,
      Vector.getElem_set_self]
    rw [Vector.getElem_set_ne _ _ (by decide), Vector.getElem_set_self, ofNat_toNat_mod,
      ofNat_toNat_mod, ← Nat.shiftLeft_add_eq_or_of_lt (Nat.mod_lt _ (by decide)),
      Nat.shiftLeft_eq, Nat.shiftRight_eq_div_pow]
    omega

theorem injectCounter_mod (state : State) (c : Nat) :
    injectCounter IS_IETF state (c % 2 ^ counterBits IS_IETF) =
      injectCounter IS_IETF state c := by
  have hword : ∀ a b : Nat, a % 2 ^ 32 = b % 2 ^ 32 → UInt32.ofNat a = UInt32.ofNat b :=
    fun a b h => UInt32.toNat_inj.mp (by rw [ofNat_toNat_mod, ofNat_toNat_mod, h])
  cases IS_IETF with
  | true =>
    simp only [injectCounter, counterBits, if_true]
    rw [hword _ c (Nat.mod_mod _ _)]
  | false =>
    simp only [injectCounter, counterBits, Bool.false_eq_true, if_false]
    rw [hword (c % 2 ^ 64) c (by omega), hword ((c % 2 ^ 64) >>> 32) (c >>> 32) (by
      rw [Nat.shiftRight_eq_div_pow, Nat.shiftRight_eq_div_pow]
      omega)]

theorem injectCounter_congr (state : State) {a b : Nat}
    (h : a % 2 ^ counterBits IS_IETF = b % 2 ^ counterBits IS_IETF) :
    injectCounter IS_IETF state a = injectCounter IS_IETF state b := by
  rw [← injectCounter_mod, h, injectCounter_mod]

theorem counter_succ_mod {a b : Nat}
    (h : a % 2 ^ counterBits IS_IETF = b % 2 ^ counterBits IS_IETF) :
    (a + 1) % 2 ^ 64 % 2 ^ counterBits IS_IETF = (b + 1) % 2 ^ counterBits IS_IETF := by
  cases IS_IETF with
  | true =>
    simp only [counterBits, if_true] at h ⊢
    omega
  | false =>
    simp only [counterBits, Bool.false_eq_true, if_false] at h ⊢
    omega

end Counter

/-! ## The stream -/

variable {ROUNDS : Nat} {IS_IETF : Bool}

/-- Octet `i` of the blocks `counter`, `counter + 1`, … laid end to end. -/
def keystream (ROUNDS : Nat) (IS_IETF : Bool) (base : State) (counter i : Nat) : UInt8 :=
  (keystreamBlock ROUNDS (injectCounter IS_IETF base (counter + i / 64))).octets.getD
    (i % 64) 0

def blocksFor (length : Nat) : Nat := (length + 63) / 64

/-- The cipher is at position `p` of the stream. -/
structure ChaCha.At (base : State) (counter p : Nat) (cipher : ChaCha ROUNDS IS_IETF) :
    Prop where
  words : ∀ c, injectCounter IS_IETF cipher.state c = injectCounter IS_IETF base c
  counter_eq : extractCounter IS_IETF cipher.state =
    (counter + blocksFor p) % 2 ^ counterBits IS_IETF
  offset : cipher.keystreamLeftoverOffset = (p + 63) % 64
  leftover : 0 < p % 64 → cipher.keystreamLeftover.octets =
    (keystreamBlock ROUNDS (injectCounter IS_IETF base (counter + p / 64))).octets.drop 1
  bound : IS_IETF = true → counter + blocksFor p ≤ U32_MAX

theorem ChaCha.At.leftoverLen_eq {base : State} {counter p : Nat}
    {cipher : ChaCha ROUNDS IS_IETF} (h : cipher.At base counter p) :
    cipher.leftoverLen = 64 * blocksFor p - p := by
  rw [leftoverLen, h.offset, BLOCK_SIZE, blocksFor]
  split <;> omega

theorem ChaCha.At.leftover_getD {base : State} {counter p : Nat}
    {cipher : ChaCha ROUNDS IS_IETF} (h : cipher.At base counter p) {i : Nat}
    (hi : i < 64 * blocksFor p - p) :
    (cipher.keystreamLeftover.octets.drop cipher.keystreamLeftoverOffset).getD i 0 =
      keystream ROUNDS IS_IETF base counter (p + i) := by
  rw [blocksFor] at hi
  have hblock : (p + i) / 64 = p / 64 := by omega
  have hindex : 1 + ((p + 63) % 64 + i) = (p + i) % 64 := by omega
  rw [h.leftover (by omega), h.offset, keystream, hblock]
  simp only [List.getD_eq_getElem?_getD, List.getElem?_drop, hindex]

/-! ## Whole blocks -/

theorem keystreamBlock_getD (base : State) (counter n : Nat) {i : Nat} (hi : i < 64) :
    (keystreamBlock ROUNDS (injectCounter IS_IETF base (counter + n))).octets.getD i 0 =
      keystream ROUNDS IS_IETF base counter (64 * n + i) := by
  rw [keystream, show (64 * n + i) / 64 = n by omega, show (64 * n + i) % 64 = i by omega]

theorem xorFrom_block (stream : Nat → UInt8) (n : Nat) (data : Bytes) :
    xorFrom stream (64 * n) data =
      xorFrom stream (64 * n) (data.take 64) ++
        xorFrom stream (64 * (n + 1)) (data.drop 64) := by
  rcases Nat.lt_or_ge data.length 64 with hshort | hlong
  · rw [List.take_of_length_le hshort.le, List.drop_eq_nil_of_le hshort.le, xorFrom_nil,
      List.append_nil]
  · conv_lhs => rw [← List.take_append_drop 64 data]
    rw [xorFrom_append, List.length_take, Nat.min_eq_left hlong, Nat.mul_succ]

theorem genericBlocks_spec (base : State) (counter : Nat) :
    ∀ (count n : Nat) (state : State) (c : Nat) (last : FixedBytes 64) (data : Bytes),
      (∀ c, injectCounter IS_IETF state c = injectCounter IS_IETF base c) →
      c % 2 ^ counterBits IS_IETF = (counter + n) % 2 ^ counterBits IS_IETF →
      count = blocksFor data.length →
      ∃ state' c' last', genericBlocks ROUNDS IS_IETF count state c last data =
          (state', c', last', xorFrom (keystream ROUNDS IS_IETF base counter) (64 * n) data) ∧
        (∀ c, injectCounter IS_IETF state' c = injectCounter IS_IETF base c) ∧
        c' % 2 ^ counterBits IS_IETF = (counter + (n + count)) % 2 ^ counterBits IS_IETF ∧
        last' = if count = 0 then last else
          keystreamBlock ROUNDS (injectCounter IS_IETF base (counter + (n + count - 1))) := by
  intro count
  induction count with
  | zero =>
    intro n state c last data hstate hc hcount
    have hnil : data = [] := List.eq_nil_of_length_eq_zero (by rw [blocksFor] at hcount; omega)
    subst hnil
    exact ⟨state, c, last, rfl, hstate, hc, rfl⟩
  | succ count ih =>
    intro n state c last data hstate hc hcount
    rw [blocksFor] at hcount
    have hinject : injectCounter IS_IETF state c =
        injectCounter IS_IETF base (counter + n) := by
      rw [hstate, injectCounter_congr base hc]
    have hblock : List.zipWith (· ^^^ ·) (data.take 64)
        (keystreamBlock ROUNDS (injectCounter IS_IETF state c)).octets =
          xorFrom (keystream ROUNDS IS_IETF base counter) (64 * n) (data.take 64) := by
      rw [hinject]
      refine zipWith_eq_xorFrom ?_ fun i hi => keystreamBlock_getD base counter n ?_
      · rw [FixedBytes.length_eq]
        simp
      · simp only [List.length_take] at hi
        omega
    obtain ⟨state', c', last', hrest, hstate', hc', hlast'⟩ := ih (n + 1)
      (injectCounter IS_IETF state c) ((c + 1) % 2 ^ 64)
      (keystreamBlock ROUNDS (injectCounter IS_IETF state c)) (data.drop 64)
      (fun k => by rw [hinject, injectCounter_injectCounter])
      (by rw [counter_succ_mod hc, Nat.add_assoc])
      (by rw [blocksFor, List.length_drop]; omega)
    refine ⟨state', c', last', ?_, hstate', ?_, ?_⟩
    · rw [genericBlocks, hblock, hrest, xorFrom_block _ n data]
    · rw [hc', Nat.add_assoc n, Nat.add_comm 1]
    · rw [hlast', hinject, if_neg (Nat.succ_ne_zero count)]
      split
      · next hzero => rw [hzero]; rfl
      · rw [Nat.add_assoc n, Nat.add_comm 1]

theorem chachaGeneric_spec (base : State) (counter n : Nat) {state : State}
    (leftover : FixedBytes 63) (data : Bytes)
    (hstate : ∀ c, injectCounter IS_IETF state c = injectCounter IS_IETF base c)
    (hcounter : extractCounter IS_IETF state = (counter + n) % 2 ^ counterBits IS_IETF) :
    ∃ state' leftover', chachaGeneric ROUNDS IS_IETF state leftover data =
        (state', leftover', xorFrom (keystream ROUNDS IS_IETF base counter) (64 * n) data) ∧
      (∀ c, injectCounter IS_IETF state' c = injectCounter IS_IETF base c) ∧
      extractCounter IS_IETF state' =
        (counter + (n + blocksFor data.length)) % 2 ^ counterBits IS_IETF ∧
      (0 < data.length % 64 → leftover'.octets = (keystreamBlock ROUNDS
        (injectCounter IS_IETF base (counter + (n + data.length / 64)))).octets.drop 1) := by
  obtain ⟨state', c', last', hblocks, hstate', hc', hlast'⟩ :=
    @genericBlocks_spec ROUNDS IS_IETF base counter (blocksFor data.length) n state
      (extractCounter IS_IETF state) (.zeroed 64) data hstate
      (by rw [hcounter, Nat.mod_mod]) rfl
  refine ⟨injectCounter IS_IETF state' c', if data.length % 64 = 0 then leftover
    else ⟨last'.octets.drop 1, by simp [last'.length_eq]⟩, ?_, fun k => ?_, ?_, fun hpart => ?_⟩
  · rw [blocksFor] at hblocks
    rw [chachaGeneric, hblocks]
  · rw [injectCounter_injectCounter, hstate']
  · rw [extractCounter_injectCounter, hc']
  · have hblocks : blocksFor data.length = data.length / 64 + 1 := by
      rw [blocksFor]
      omega
    rw [hblocks, if_neg (Nat.succ_ne_zero _)] at hlast'
    rw [if_neg (by omega), hlast']
    rfl

/-! ## Calls -/

namespace ChaCha

theorem xorBlocks_spec {base : State} {counter n p : Nat} {cipher : ChaCha ROUNDS IS_IETF}
    (data : Bytes) (h : cipher.At base counter p) (hp : blocksFor p = n)
    (hbound : IS_IETF = true → counter + (n + blocksFor data.length) ≤ U32_MAX) :
    ∃ cipher', cipher.xorBlocks data =
        (cipher', xorFrom (keystream ROUNDS IS_IETF base counter) (64 * n) data) ∧
      cipher'.At base counter (64 * n + data.length) := by
  obtain ⟨state', leftover', hgeneric, hstate', hcounter', hleftover'⟩ :=
    @chachaGeneric_spec ROUNDS IS_IETF base counter n cipher.state cipher.keystreamLeftover
      data h.words (by rw [h.counter_eq, hp])
  have hblocks : blocksFor (64 * n + data.length) = n + blocksFor data.length := by
    simp only [blocksFor]
    omega
  refine ⟨⟨state', leftover', (data.length + BLOCK_SIZE - 1) % BLOCK_SIZE⟩, ?_, ?_⟩
  · rw [xorBlocks, hgeneric]
  · constructor
    case words => exact hstate'
    case counter_eq => rw [hcounter', hblocks]
    case offset =>
      simp only [BLOCK_SIZE]
      omega
    case leftover =>
      intro hpart
      rw [hleftover' (by omega)]
      congr 5
      omega
    case bound => rwa [hblocks]

theorem exhausted_iff {base : State} {counter p : Nat} {cipher : ChaCha ROUNDS IS_IETF}
    (h : cipher.At base counter p) (length : Nat) :
    cipher.exhausted length = true ↔
      IS_IETF = true ∧ U32_MAX < counter + blocksFor (p + length) := by
  rw [exhausted, Bool.and_eq_true, decide_eq_true_iff]
  refine and_congr_right fun hietf => ?_
  have hbound := h.bound hietf
  have hbits : 2 ^ counterBits IS_IETF = U32_MAX + 1 := by rw [hietf]; rfl
  rw [h.counter_eq, h.leftoverLen_eq, hbits, Nat.mod_eq_of_lt (by omega)]
  simp only [blocksFor, BLOCK_SIZE]
  omega

theorem zipWith_leftover {base : State} {counter p : Nat} {cipher : ChaCha ROUNDS IS_IETF}
    (h : cipher.At base counter p) {data : Bytes}
    (hlength : data.length ≤ 64 * blocksFor p - p) :
    List.zipWith (· ^^^ ·) data
        (cipher.keystreamLeftover.octets.drop cipher.keystreamLeftoverOffset) =
      xorFrom (keystream ROUNDS IS_IETF base counter) p data := by
  refine zipWith_eq_xorFrom ?_ fun i hi => h.leftover_getD (by omega)
  rw [blocksFor] at hlength
  rw [List.length_drop, FixedBytes.length_eq, h.offset]
  omega

theorem zipWith_take {f : UInt8 → UInt8 → UInt8} {a b : Bytes} :
    List.zipWith f a b = List.zipWith f (a.take b.length) b := by
  induction a generalizing b with
  | nil => simp
  | cons x a ih =>
    cases b with
    | nil => simp
    | cons y b =>
      rw [List.zipWith_cons_cons, ih, List.length_cons, List.take_succ_cons,
        List.zipWith_cons_cons]

theorem At.advance {base : State} {counter p q : Nat} {cipher : ChaCha ROUNDS IS_IETF}
    (h : cipher.At base counter p) (hpart : 0 < p % 64) (hle : p ≤ q)
    (hq : q ≤ 64 * blocksFor p) :
    ({ cipher with keystreamLeftoverOffset := (q + 63) % 64 } :
      ChaCha ROUNDS IS_IETF).At base counter q := by
  rw [blocksFor] at hq
  have hblocks : blocksFor q = blocksFor p := by
    rw [blocksFor, blocksFor]
    omega
  constructor
  case words => exact h.words
  case counter_eq => rw [hblocks, ← h.counter_eq]
  case offset => rfl
  case leftover =>
    intro hmod
    rw [show q / 64 = p / 64 by omega]
    exact h.leftover hpart
  case bound => rw [hblocks]; exact h.bound

/-- One call: the assertion fails exactly when the counter would pass `u32::MAX`, and
otherwise the input is added to the stream at the position of the cipher. -/
theorem xorKeystream_spec {base : State} {counter p : Nat} {cipher : ChaCha ROUNDS IS_IETF}
    (h : cipher.At base counter p) (data : Bytes) :
    if IS_IETF = true ∧ U32_MAX < counter + blocksFor (p + data.length) then
      cipher.xorKeystream data = none
    else ∃ cipher', cipher.xorKeystream data =
        some (cipher', xorFrom (keystream ROUNDS IS_IETF base counter) p data) ∧
      cipher'.At base counter (p + data.length) := by
  rcases Nat.eq_zero_or_pos data.length with hempty | hpos
  · have hnil := List.eq_nil_of_length_eq_zero hempty
    subst hnil
    rw [if_neg (by rintro ⟨hietf, hlt⟩; have := h.bound hietf; simp at hlt; omega)]
    exact ⟨cipher, rfl, h⟩
  · have hexhausted := exhausted_iff h data.length
    rw [xorKeystream, if_neg hpos.ne']
    split
    · next hover => rw [if_pos (hexhausted.mpr hover)]
    · next hfits =>
      rw [if_neg (mt hexhausted.mp hfits)]
      have hbound : IS_IETF = true → counter + blocksFor (p + data.length) ≤ U32_MAX :=
        fun hietf => Nat.le_of_not_lt fun hlt => hfits ⟨hietf, hlt⟩
      have hlength : (cipher.keystreamLeftover.octets.drop
          cipher.keystreamLeftoverOffset).length = 64 * blocksFor p - p := by
        rw [List.length_drop, FixedBytes.length_eq, h.offset, blocksFor]
        omega
      have hblocks : blocksFor p = (p + 63) / 64 := rfl
      split
      · next hoffset =>
        rw [h.offset, BLOCK_SIZE] at hoffset
        simp only [hlength]
        split
        · next hlong =>
          obtain ⟨cipher', hxor, hat⟩ := xorBlocks_spec
            (data.drop (64 * blocksFor p - p)) h rfl (fun hietf => by
              have := hbound hietf
              simp only [blocksFor, List.length_drop] at this ⊢
              omega)
          refine ⟨cipher', ?_, ?_⟩
          · rw [hxor, zipWith_take, hlength,
              zipWith_leftover h (by rw [List.length_take]; omega)]
            conv_rhs => rw [← List.take_append_drop (64 * blocksFor p - p) data]
            rw [xorFrom_append, List.length_take, Nat.min_eq_left (by omega),
              show p + (64 * blocksFor p - p) = 64 * blocksFor p by omega]
          · convert hat using 1
            rw [List.length_drop]
            omega
        · next hshort =>
          have hadvance := h.advance (q := p + data.length) (by omega) (by omega)
            (by omega)
          rw [zipWith_leftover h (by omega)]
          split
          · next hless =>
            refine ⟨_, rfl, ?_⟩
            convert hadvance using 2
            rw [h.offset]
            omega
          · next hnot =>
            refine ⟨_, rfl, ?_⟩
            convert hadvance using 2
            rw [BLOCK_SIZE]
            omega
      · next hoffset =>
        rw [h.offset, BLOCK_SIZE] at hoffset
        obtain ⟨cipher', hxor, hat⟩ := xorBlocks_spec (n := p / 64) data h
          (by omega) (fun hietf => by
            have := hbound hietf
            simp only [blocksFor] at this ⊢
            omega)
        rw [show 64 * (p / 64) = p by omega] at hxor hat
        exact ⟨cipher', by rw [hxor], hat⟩

theorem blocksFor_mono {m n : Nat} (h : m ≤ n) : blocksFor m ≤ blocksFor n :=
  Nat.div_le_div_right (Nat.add_le_add_right h 63)

theorem xorKeystreams_spec {base : State} {counter : Nat} (calls : List Bytes) :
    ∀ {p : Nat} {cipher : ChaCha ROUNDS IS_IETF}, cipher.At base counter p →
      if IS_IETF = true ∧ U32_MAX < counter + blocksFor (p + calls.flatten.length) then
        cipher.xorKeystreams calls = none
      else ∃ cipher' outputs, cipher.xorKeystreams calls = some (cipher', outputs) ∧
        outputs.flatten = xorFrom (keystream ROUNDS IS_IETF base counter) p calls.flatten ∧
        cipher'.At base counter (p + calls.flatten.length) := by
  induction calls with
  | nil =>
    intro p cipher h
    rw [if_neg (by rintro ⟨hietf, hlt⟩; have := h.bound hietf; simp at hlt; omega)]
    exact ⟨cipher, [], rfl, rfl, h⟩
  | cons data rest ih =>
    intro p cipher h
    have hstep := xorKeystream_spec h data
    have hlength : p + (data :: rest).flatten.length =
        p + data.length + rest.flatten.length := by
      rw [List.flatten_cons, List.length_append, Nat.add_assoc]
    rw [hlength, xorKeystreams]
    by_cases hover : IS_IETF = true ∧ U32_MAX < counter + blocksFor (p + data.length)
    · rw [if_pos hover] at hstep
      have hmono := blocksFor_mono (Nat.le_add_right (p + data.length) rest.flatten.length)
      rw [if_pos ⟨hover.1, by omega⟩, hstep]
      rfl
    · rw [if_neg hover] at hstep
      obtain ⟨cipher', hxor, hat⟩ := hstep
      have hrest := ih hat
      split
      · next hlast =>
        rw [if_pos hlast] at hrest
        simp [hxor, hrest]
      · next hlast =>
        rw [if_neg hlast] at hrest
        obtain ⟨cipher'', outputs, hrun, hflatten, hat'⟩ := hrest
        refine ⟨cipher'', xorFrom (keystream ROUNDS IS_IETF base counter) p data ::
          outputs, by simp [hxor, hrun], ?_, hat'⟩
        rw [List.flatten_cons, List.flatten_cons, hflatten, xorFrom_append]

theorem setCounter_new_at (key : FixedBytes 32) (nonce : FixedBytes (nonceSize IS_IETF))
    (counter : BitVec (counterBits IS_IETF)) :
    ((new key nonce : ChaCha ROUNDS IS_IETF).setCounter counter).At
      (initialState IS_IETF key nonce) counter.toNat 0 := by
  have hlt := counter.isLt
  constructor
  case words => exact fun c => injectCounter_injectCounter _ _ c
  case counter_eq => exact extractCounter_injectCounter _ _
  case offset => rfl
  case leftover => exact fun h => absurd h (by decide)
  case bound =>
    intro hietf
    subst hietf
    exact Nat.le_of_lt_succ hlt

theorem position_inj {base : State} {counter length i j : Nat}
    (hbound : counter + blocksFor length ≤ U32_MAX) (hi : i < length) (hj : j < length)
    (hword : (injectCounter true base (counter + i / 64))[12] =
      (injectCounter true base (counter + j / 64))[12])
    (hoffset : i % 64 = j % 64) : i = j := by
  have hvalue : ∀ k, k < length →
      (injectCounter true base (counter + k / 64))[12].toNat = counter + k / 64 := by
    intro k hk
    have hextract := @extractCounter_injectCounter true base (counter + k / 64)
    rw [blocksFor, U32_MAX] at hbound
    rw [counterBits, if_pos rfl, Nat.mod_eq_of_lt (by omega)] at hextract
    exact hextract
  have hblock := hvalue i hi
  rw [hword, hvalue j hj] at hblock
  omega

/--
From any position that calls of any lengths have reached, the output of further calls is
their concatenation added to the blocks `counter`, `counter + 1`, … laid end to end; the
assertion fails exactly when a 32-bit counter would pass `u32::MAX`.  Hence only the
concatenation matters, a second pass restores the input, and no octet of a block of the
32-bit layout serves two positions.
-/
theorem chacha_streaming (key : FixedBytes 32) (nonce : FixedBytes (nonceSize IS_IETF))
    (counter : BitVec (counterBits IS_IETF)) (earlier : List Bytes)
    (cipher : ChaCha ROUNDS IS_IETF) (before : List Bytes)
    (hearlier : ((new key nonce).setCounter counter).xorKeystreams earlier =
      some (cipher, before)) (calls : List Bytes) :
    let base := initialState IS_IETF key nonce
    let stream := keystream ROUNDS IS_IETF base counter.toNat
    let p := earlier.flatten.length
    let total := p + calls.flatten.length
    before.flatten = xorFrom stream 0 earlier.flatten ∧
    (cipher.xorKeystreams calls = none ↔
      IS_IETF = true ∧ U32_MAX < counter.toNat + blocksFor total) ∧
    ∀ cipher' outputs, cipher.xorKeystreams calls = some (cipher', outputs) →
      outputs.flatten = xorFrom stream p calls.flatten ∧
      (∀ again : List Bytes, again.flatten = calls.flatten →
        ∃ cipher'' same, cipher.xorKeystreams again = some (cipher'', same) ∧
          same.flatten = outputs.flatten) ∧
      (∀ again : List Bytes, again.flatten = outputs.flatten →
        ∃ cipher'' back, cipher.xorKeystreams again = some (cipher'', back) ∧
          back.flatten = calls.flatten) ∧
      (IS_IETF = true → ∀ i j, i < total → j < total →
        (injectCounter IS_IETF base (counter.toNat + i / 64))[12] =
          (injectCounter IS_IETF base (counter.toNat + j / 64))[12] →
        i % 64 = j % 64 → i = j) := by
  intro base stream p total
  have hstart := xorKeystreams_spec earlier (@setCounter_new_at ROUNDS IS_IETF key nonce counter)
  rw [Nat.zero_add] at hstart
  split at hstart
  · next hover => rw [hearlier] at hstart; cases hstart
  · next hfits =>
    obtain ⟨cipher', outputs, hrun, hflatten, hat⟩ := hstart
    rw [hearlier, Option.some.injEq, Prod.mk.injEq] at hrun
    obtain ⟨rfl, rfl⟩ := hrun
    have hcalls := xorKeystreams_spec calls hat
    refine ⟨hflatten, ⟨fun hnone => ?_, fun hover => ?_⟩, ?_⟩
    · by_contra hnot
      rw [if_neg hnot] at hcalls
      obtain ⟨_, _, hsome, -⟩ := hcalls
      rw [hnone] at hsome
      cases hsome
    · rwa [if_pos hover] at hcalls
    · intro cipher'' outputs' hsome
      split at hcalls
      · rw [hcalls] at hsome
        cases hsome
      · next hbound =>
        obtain ⟨c, o, hrun, hout, -⟩ := hcalls
        rw [hsome, Option.some.injEq, Prod.mk.injEq] at hrun
        obtain ⟨rfl, rfl⟩ := hrun
        -- any calls of the same length get the same stretch of the stream
        have hsame : ∀ again : List Bytes,
            again.flatten.length = calls.flatten.length →
            ∃ cipher'' outputs, cipher.xorKeystreams again = some (cipher'', outputs) ∧
              outputs.flatten = xorFrom stream p again.flatten := by
          intro again hlength
          have hagain := xorKeystreams_spec again hat
          rw [hlength, if_neg hbound] at hagain
          obtain ⟨c, o, hrun, hout, -⟩ := hagain
          exact ⟨c, o, hrun, hout⟩
        refine ⟨hout, fun again heq => ?_, fun again heq => ?_, ?_⟩
        · obtain ⟨c, o, hrun, hagain⟩ := hsame again (by rw [heq])
          exact ⟨c, o, hrun, by rw [hagain, heq, hout]⟩
        · obtain ⟨c, o, hrun, hagain⟩ := hsame again (by rw [heq, hout, xorFrom_length])
          exact ⟨c, o, hrun, by rw [hagain, heq, hout, xorFrom_xorFrom]⟩
        · rintro rfl i j hi hj hword hoffset
          exact position_inj (Nat.le_of_not_lt fun hlt => hbound ⟨rfl, hlt⟩) hi hj hword
            hoffset

theorem chacha_streaming_from_start :
    ((new (.zeroed 32) (.zeroed _) : ChaCha 20 true).setCounter 1#32).xorKeystreams
      [[1, 2, 3], [], [4]] ≠ none := by
  intro hnone
  have hover := ((@chacha_streaming 20 true (.zeroed 32) (.zeroed _) 1#32 []
    ((new (.zeroed 32) (.zeroed _) : ChaCha 20 true).setCounter 1#32) [] rfl
    [[1, 2, 3], [], [4]]).2.1.mp hnone).2
  exact absurd hover (by decide)

end ChaCha

end Stdx.Cipher
