import Stdx.Xxhash.Xxh3

/-!
# XXH3 streaming

The streaming state buffers 256 octets, consumes stripes a buffer at a time and keeps
the last consumed stripe to rebuild the final one, which overlaps it.  However the
input is cut, its digest is that of the input in one piece.
-/

namespace Stdx.Xxhash.Xxh3

open Stdx.Foundation

def INTERNAL_BUFFER_SIZE : Nat := 256
def INTERNAL_BUFFER_STRIPES : Nat := INTERNAL_BUFFER_SIZE / STRIPE_LEN

/-! ## The state -/

section

variable (kernel : Kernel)

def consumeBlock (acc : Acc) (input : Bytes) (pos : Nat) (secret : Bytes)
    (secretOff nbThis : Nat) : Option Acc := do
  let acc ← accumulateLoop kernel acc input pos secret secretOff nbThis
  let secretLast ← subUsize secret.length STRIPE_LEN
  scrambleAcc kernel acc secret secretLast

def consumeBlocks (acc : Acc) (input : Bytes) (pos : Nat) (secret : Bytes) (nbStripes : Nat) :
    Option (Acc × Nat × Nat) :=
  if _ : nbStripes < STRIPES_PER_BLOCK then some (acc, pos, nbStripes)
  else do
    let acc ← consumeBlock kernel acc input pos secret 0 STRIPES_PER_BLOCK
    consumeBlocks acc input (pos + STRIPES_PER_BLOCK * STRIPE_LEN) secret
      (nbStripes - STRIPES_PER_BLOCK)
termination_by nbStripes
decreasing_by
  have : STRIPES_PER_BLOCK = 16 := rfl
  omega

def consumeStripes (acc : Acc) (nbStripesSoFar : Nat) (input : Bytes) (nbStripes : Nat)
    (secret : Bytes) : Option (Acc × Nat) := do
  let room ← subUsize STRIPES_PER_BLOCK nbStripesSoFar
  let (acc, nbStripesSoFar, pos, nbStripes, secretOff) ←
    if nbStripes ≥ room then do
      let acc ← consumeBlock kernel acc input 0 secret (nbStripesSoFar * SECRET_CONSUME_RATE) room
      let (acc, pos, nbStripes) ←
        consumeBlocks kernel acc input (room * STRIPE_LEN) secret (nbStripes - room)
      some (acc, 0, pos, nbStripes, 0)
    else some (acc, nbStripesSoFar, 0, nbStripes, nbStripesSoFar * SECRET_CONSUME_RATE)
  if nbStripes > 0 then do
    let acc ← accumulateLoop kernel acc input pos secret secretOff nbStripes
    some (acc, nbStripesSoFar + nbStripes)
  else some (acc, nbStripesSoFar)

end

structure Xxh3State where
  acc : Acc
  secret : FixedBytes 192
  buffer : FixedBytes 256
  bufferedSize : Nat
  nbStripesSoFar : Nat
  totalLen : BitVec 64
  seed : BitVec 64
  useSeed : Bool

namespace Xxh3State

def new (secret : FixedBytes 192) (seed : BitVec 64) (useSeed : Bool) : Xxh3State where
  acc := INITIAL_ACC
  secret := secret
  buffer := FixedBytes.zeroed 256
  bufferedSize := 0
  nbStripesSoFar := 0
  totalLen := 0
  seed := seed
  useSeed := useSeed

def customDefaultSecretScalar (seed : BitVec 64) : FixedBytes 192 where
  octets := (List.range 12).flatMap fun i =>
    leOctets 8 (wordAt DEFAULT_SECRET.octets (i * 16) + seed).toNat ++
      leOctets 8 (wordAt DEFAULT_SECRET.octets (i * 16 + 8) - seed).toNat
  length_eq := by simp [List.length_flatMap, leOctets_length]

def withSeed (seed : BitVec 64) : Xxh3State :=
  if seed = 0 then new DEFAULT_SECRET 0 false else new (customDefaultSecretScalar seed) seed true

def withSecret (secret : FixedBytes 192) : Xxh3State := new secret 0 false

def withSeedAndSecret (seed : BitVec 64) (secret : FixedBytes 192) : Xxh3State :=
  new secret seed true

section

variable (kernel : Kernel)

def fill (s : Xxh3State) (data : Bytes) : Option (Xxh3State × Bytes) :=
  if s.bufferedSize > 0 then do
    let loadSize ← subUsize INTERNAL_BUFFER_SIZE s.bufferedSize
    let buffer ← s.buffer.copyInto s.bufferedSize (data.take loadSize)
    let (acc, nbStripesSoFar) ← consumeStripes kernel s.acc s.nbStripesSoFar buffer.octets
      INTERNAL_BUFFER_STRIPES s.secret.octets
    some ({ s with
      acc := acc
      nbStripesSoFar := nbStripesSoFar
      buffer := buffer
      bufferedSize := 0 }, data.drop loadSize)
  else some (s, data)

def absorb (s : Xxh3State) (data : Bytes) : Option (Xxh3State × Bytes) :=
  if data.length > INTERNAL_BUFFER_SIZE then do
    let nbStripes := (data.length - 1) / STRIPE_LEN
    let (acc, nbStripesSoFar) ← consumeStripes kernel s.acc s.nbStripesSoFar data nbStripes
      s.secret.octets
    let consumed := nbStripes * STRIPE_LEN
    let buffer ← s.buffer.copyInto (INTERNAL_BUFFER_SIZE - STRIPE_LEN)
      ((data.drop (consumed - STRIPE_LEN)).take STRIPE_LEN)
    some ({ s with acc := acc, nbStripesSoFar := nbStripesSoFar, buffer := buffer },
      data.drop consumed)
  else some (s, data)

def keep (s : Xxh3State) (data : Bytes) : Option Xxh3State := do
  let buffer ← s.buffer.copyInto 0 data
  some { s with buffer := buffer, bufferedSize := data.length }

def update (s : Xxh3State) (input : Bytes) : Option Xxh3State := do
  let totalLen ← addLength s.totalLen input.length
  let s := { s with totalLen := totalLen }
  let room ← subUsize INTERNAL_BUFFER_SIZE s.bufferedSize
  if input.length ≤ room then do
    let buffer ← s.buffer.copyInto s.bufferedSize input
    some { s with buffer := buffer, bufferedSize := s.bufferedSize + input.length }
  else do
    let (s, data) ← s.fill kernel input
    let (s, data) ← s.absorb kernel data
    s.keep data

def updates (s : Xxh3State) : List Bytes → Option Xxh3State
  | [] => some s
  | data :: rest => do
      let s ← s.update kernel data
      s.updates rest

def digestShort (O : Output) (s : Xxh3State) : Option O.Value := do
  let data ← s.buffer.upTo s.bufferedSize
  if s.useSeed then O.short data s.seed DEFAULT_SECRET.octets else O.short data 0 s.secret.octets

def digestLongAcc (s : Xxh3State) : Option Acc :=
  if s.bufferedSize ≥ STRIPE_LEN then do
    let nbStripes := (s.bufferedSize - 1) / STRIPE_LEN
    let (acc, _) ← consumeStripes kernel s.acc s.nbStripesSoFar s.buffer.octets nbStripes
      s.secret.octets
    let lastOff := s.bufferedSize - STRIPE_LEN
    accumulate512 kernel acc s.buffer.octets lastOff s.secret.octets LAST_STRIPE_SECRET_OFFSET
  else do
    let catchup := STRIPE_LEN - s.bufferedSize
    let back := s.buffer.octets.drop (INTERNAL_BUFFER_SIZE - catchup)
    let front ← s.buffer.upTo s.bufferedSize
    accumulate512 kernel s.acc (back ++ front) 0 s.secret.octets LAST_STRIPE_SECRET_OFFSET

def digestLong (O : Output) (s : Xxh3State) : Option O.Value := do
  let acc ← s.digestLongAcc kernel
  O.merge acc s.secret.octets s.totalLen

def digest (O : Output) (s : Xxh3State) : Option O.Value :=
  if s.totalLen.toNat ≤ MID_SIZE_MAX then s.digestShort O else s.digestLong kernel O

def hash (O : Output) (s : Xxh3State) (data : Bytes) : Option O.Value :=
  if data.length ≤ MID_SIZE_MAX then
    if s.useSeed then O.short data s.seed DEFAULT_SECRET.octets else O.short data 0 s.secret.octets
  else longDispatch O kernel data s.secret.octets

end

end Xxh3State

/-! ## Stripes -/

def stripeStep (secret : Bytes) (i : Nat) (acc : Acc) (stripe : Bytes) : Acc :=
  let acc := accumulated acc stripe (secret.drop (8 * (i % 16)))
  if i % 16 = 15 then scrambled acc (secret.drop 128) else acc

def folded (secret : Bytes) (start count : Nat) (acc : Acc) (data : Bytes) : Acc :=
  foldBlocks 64 (fun i => stripeStep secret (start + i)) count acc data

section

variable {secret data : Bytes} {start count a b : Nat} {acc : Acc}

@[simp] theorem folded_zero : folded secret start 0 acc data = acc := rfl

theorem folded_add (h : 64 * a ≤ data.length) :
    folded secret start (a + b) acc data =
      folded secret (start + a) b (folded secret start a acc data) (data.drop (64 * a)) := by
  have hfront : (data.take (64 * a)).length = 64 * a := by
    rw [List.length_take]
    omega
  have hsplit := foldBlocks_append_right (data.drop (64 * a)) hfront
    (fun i => stripeStep secret (start + i)) b acc
  rw [List.take_append_drop] at hsplit
  have hhead : foldBlocks 64 (fun i => stripeStep secret (start + i)) a acc data =
      foldBlocks 64 (fun i => stripeStep secret (start + i)) a acc (data.take (64 * a)) := by
    conv_lhs => rw [← List.take_append_drop (64 * a) data]
    exact foldBlocks_append_left _ (Nat.le_of_eq hfront.symm) _ _
  rw [folded, folded, folded, hsplit, hhead]
  simp only [Nat.add_assoc]

theorem folded_append (back : Bytes) (h : 64 * count ≤ data.length) :
    folded secret start count acc (data ++ back) = folded secret start count acc data :=
  foldBlocks_append_left back h _ _

theorem folded_congr {start' : Nat} (h : start % 16 = start' % 16) :
    folded secret start count acc data = folded secret start' count acc data := by
  unfold folded
  congr 1
  funext i acc stripe
  rw [stripeStep, stripeStep, Nat.add_mod, h, ← Nat.add_mod]

theorem folded_within (h : start + count < 16) :
    folded secret start count acc data = foldBlocks 64 (fun i acc stripe =>
      accumulated acc stripe (secret.drop (start * 8 + 8 * i))) count acc data := by
  unfold folded
  induction count with
  | zero => rfl
  | succ n ih =>
    rw [foldBlocks_succ, foldBlocks_succ, ih (by omega), stripeStep,
      Nat.mod_eq_of_lt (by omega : start + n < 16), if_neg (by omega),
      show 8 * (start + n) = start * 8 + 8 * n by omega]

theorem folded_block (h : start + count = 16) (hcount : 0 < count) :
    folded secret start count acc data = scrambled (foldBlocks 64 (fun i acc stripe =>
      accumulated acc stripe (secret.drop (start * 8 + 8 * i))) count acc data)
        (secret.drop 128) := by
  obtain ⟨n, rfl⟩ := Nat.exists_eq_succ_of_ne_zero (Nat.ne_of_gt hcount)
  have hbefore := @folded_within secret data start n acc (by omega)
  rw [folded] at hbefore
  rw [folded, foldBlocks_succ, hbefore, foldBlocks_succ, stripeStep,
    Nat.mod_eq_of_lt (by omega : start + n < 16), if_pos (by omega),
    show 8 * (start + n) = start * 8 + 8 * n by omega]

end

section

variable (kernel : Kernel) {secret input : Bytes} {start count pos : Nat} {acc : Acc}

theorem accumulateLoop_within (hsecret : secret.length = 192) (h : start + count < 16)
    (hinput : pos + 64 * count ≤ input.length) :
    accumulateLoop kernel acc input pos secret (start * 8) count =
      some (folded secret start count acc (input.drop pos)) := by
  rw [accumulateLoop_eq kernel acc hinput fun i hi => by omega, folded_within h]

theorem consumeBlock_eq (hsecret : secret.length = 192) (h : start + count = 16)
    (hcount : 0 < count) (hinput : pos + 64 * count ≤ input.length) :
    consumeBlock kernel acc input pos secret (start * 8) count =
      some (folded secret start count acc (input.drop pos)) := by
  have hlast : subUsize secret.length STRIPE_LEN = some 128 := by
    rw [hsecret]
    rfl
  rw [consumeBlock, accumulateLoop_eq kernel acc hinput fun i hi => by omega, hlast]
  simp only [Option.bind_eq_bind, Option.bind_some]
  rw [scrambleAcc_eq kernel _ (by omega), folded_block h hcount]

theorem consumeBlocks_eq (hsecret : secret.length = 192)
    (hinput : pos + 64 * count ≤ input.length) :
    consumeBlocks kernel acc input pos secret count =
      some (folded secret 0 (16 * (count / 16)) acc (input.drop pos),
        pos + 64 * (16 * (count / 16)), count % 16) := by
  induction count using Nat.strong_induction_on generalizing acc pos with
  | _ count ih =>
    have hblock : STRIPES_PER_BLOCK = 16 := rfl
    have hstripe : STRIPE_LEN = 64 := rfl
    rw [consumeBlocks]
    split
    · next hshort =>
      rw [hblock] at hshort
      rw [Nat.div_eq_of_lt hshort, Nat.mod_eq_of_lt hshort]
      rfl
    · next hlong =>
      rw [hblock] at hlong
      have hturn := @consumeBlock_eq kernel secret input 0 16 pos acc hsecret rfl (by decide)
        (by omega)
      rw [Nat.zero_mul] at hturn
      rw [hblock, hstripe, hturn]
      simp only [Option.bind_eq_bind, Option.bind_some]
      rw [ih (count - 16) (by omega) (by omega)]
      have hdiv : count / 16 = (count - 16) / 16 + 1 := by omega
      have hdrop : (input.drop pos).drop (64 * 16) = input.drop (pos + 16 * 64) := by
        rw [List.drop_drop]
      have hsplit := @folded_add secret (input.drop pos) 0 16 (16 * ((count - 16) / 16)) acc
        (by rw [List.length_drop]; omega)
      rw [hdrop, folded_congr (show (0 + 16) % 16 = 0 % 16 from rfl)] at hsplit
      rw [hdiv, show 16 * ((count - 16) / 16 + 1) = 16 + 16 * ((count - 16) / 16) by omega,
        hsplit, show (count - 16) % 16 = count % 16 by omega]
      congr 3
      omega

theorem consumeStripes_eq (hsecret : secret.length = 192) (hstart : start < 16)
    (hinput : 64 * count ≤ input.length) :
    consumeStripes kernel acc start input count secret =
      some (folded secret start count acc input, (start + count) % 16) := by
  have hroom : subUsize STRIPES_PER_BLOCK start = some (16 - start) := if_pos (Nat.le_of_lt hstart)
  have hrate : SECRET_CONSUME_RATE = 8 := rfl
  have hstripe : STRIPE_LEN = 64 := rfl
  rw [consumeStripes, hroom, hrate, hstripe]
  simp only [Option.bind_eq_bind, Option.bind_some]
  by_cases hlong : 16 - start ≤ count
  · rw [if_pos hlong, consumeBlock_eq kernel hsecret (by omega) (by omega) (by omega)]
    simp only [Option.bind_some, List.drop_zero]
    rw [consumeBlocks_eq kernel hsecret (by omega)]
    simp only [Option.bind_some]
    -- the stripes of the first block, of the whole blocks behind it, and of the last one
    have hfirst := @folded_add secret input start (16 - start) (count - (16 - start)) acc (by omega)
    rw [Nat.add_sub_of_le hlong, folded_congr (show (start + (16 - start)) % 16 = 0 % 16 by omega)]
      at hfirst
    have hwhole := @folded_add secret (input.drop (64 * (16 - start))) 0
      (16 * ((count - (16 - start)) / 16)) ((count - (16 - start)) % 16)
      (folded secret start (16 - start) acc input) (by rw [List.length_drop]; omega)
    rw [Nat.div_add_mod, List.drop_drop, folded_congr
      (show (0 + 16 * ((count - (16 - start)) / 16)) % 16 = 0 % 16 by omega)] at hwhole
    rw [Nat.mul_comm (16 - start) 64, hfirst, hwhole]
    by_cases hrest : 0 < (count - (16 - start)) % 16
    · rw [if_pos hrest]
      have hlast := @accumulateLoop_within kernel secret input 0 ((count - (16 - start)) % 16)
        (64 * (16 - start) + 64 * (16 * ((count - (16 - start)) / 16)))
        (folded secret 0 (16 * ((count - (16 - start)) / 16))
          (folded secret start (16 - start) acc input) (input.drop (64 * (16 - start))))
        hsecret (by omega) (by omega)
      rw [Nat.zero_mul] at hlast
      rw [hlast]
      simp only [Option.bind_some]
      congr 2
      omega
    · have hzero : (count - (16 - start)) % 16 = 0 := by omega
      rw [if_neg hrest, hzero, folded_zero, show (start + count) % 16 = 0 by omega]
  · rw [if_neg hlong]
    by_cases hcount : 0 < count
    · rw [if_pos hcount, accumulateLoop_within kernel hsecret (by omega) (by omega)]
      simp only [Option.bind_some, List.drop_zero]
      rw [Nat.mod_eq_of_lt (by omega)]
    · obtain rfl : count = 0 := by omega
      rw [if_neg hcount, folded_zero, Nat.add_zero, Nat.mod_eq_of_lt hstart]

end

/-! ## The long path in one piece -/

def longAcc (secret input : Bytes) : Acc :=
  accumulated (folded secret 0 ((input.length - 1) / 64) INITIAL_ACC input)
    (input.drop (input.length - 64)) (secret.drop LAST_STRIPE_SECRET_OFFSET)

section

variable (kernel : Kernel) {secret input : Bytes} {acc : Acc}

theorem hashBlocks_eq (hsecret : secret.length = 192) {nbBlocks : Nat}
    (hinput : 1024 * nbBlocks ≤ input.length) :
    hashBlocks kernel acc input secret nbBlocks =
      some (folded secret 0 (16 * nbBlocks) acc input) := by
  have hlast : subUsize secret.length STRIPE_LEN = some 128 := by
    rw [hsecret]
    rfl
  have hblock : STRIPES_PER_BLOCK = 16 := rfl
  have hstripe : STRIPE_LEN = 64 := rfl
  rw [hashBlocks, hlast, hblock, hstripe]
  simp only [Option.bind_eq_bind, Option.bind_some]
  induction nbBlocks with
  | zero => rfl
  | succ n ih =>
    have hblocks := @folded_add secret input 0 (16 * n) 16 acc (by omega)
    have hturn := @consumeBlock_eq kernel secret input 0 16 (n * (64 * 16))
      (folded secret 0 (16 * n) acc input) hsecret rfl (by decide) (by omega)
    rw [Nat.zero_mul, consumeBlock, hlast] at hturn
    simp only [Option.bind_eq_bind, Option.bind_some] at hturn
    rw [List.range_succ, List.foldlM_append, ih (by omega)]
    simp only [List.foldlM_cons, List.foldlM_nil, Option.bind_eq_bind, Option.bind_some,
      Option.pure_def, Option.bind_fun_some]
    rw [hturn, show 16 * (n + 1) = 16 * n + 16 from rfl, hblocks,
      folded_congr (show (0 + 16 * n) % 16 = 0 % 16 by omega),
      show n * (64 * 16) = 64 * (16 * n) by omega]

theorem hashLongInternalLoop_eq (hsecret : secret.length = 192) (hinput : 64 < input.length) :
    hashLongInternalLoop kernel LAST_STRIPE_SECRET_OFFSET INITIAL_ACC input secret =
      some (longAcc secret input) := by
  have hblock : STRIPE_LEN * STRIPES_PER_BLOCK = 1024 := rfl
  have hstripe : STRIPE_LEN = 64 := rfl
  have hone : subUsize input.length 1 = some (input.length - 1) := subUsize_eq (by omega)
  have hstart : subUsize input.length 64 = some (input.length - 64) := subUsize_eq (by omega)
  have hoffset : LAST_STRIPE_SECRET_OFFSET + 64 ≤ secret.length := by
    rw [hsecret]
    decide
  rw [hashLongInternalLoop, hone, hblock, hstripe, hstart]
  simp only [Option.bind_eq_bind, Option.bind_some]
  rw [hashBlocks_eq kernel hsecret (by omega)]
  simp only [Option.bind_some]
  have hleftover := @accumulateLoop_within kernel secret input 0
    ((input.length - 1 - 1024 * ((input.length - 1) / 1024)) / 64)
    ((input.length - 1) / 1024 * 1024)
    (folded secret 0 (16 * ((input.length - 1) / 1024)) INITIAL_ACC input) hsecret (by omega)
    (by omega)
  have hsplit := @folded_add secret input 0 (16 * ((input.length - 1) / 1024))
    ((input.length - 1 - 1024 * ((input.length - 1) / 1024)) / 64) INITIAL_ACC (by omega)
  rw [folded_congr (show (0 + 16 * ((input.length - 1) / 1024)) % 16 = 0 % 16 by omega),
    show 64 * (16 * ((input.length - 1) / 1024)) = (input.length - 1) / 1024 * 1024 by omega,
    show 16 * ((input.length - 1) / 1024) +
      (input.length - 1 - 1024 * ((input.length - 1) / 1024)) / 64 = (input.length - 1) / 64
      by omega] at hsplit
  rw [Nat.zero_mul, ← hsplit] at hleftover
  rw [hleftover]
  simp only [Option.bind_some]
  exact accumulate512_eq kernel _ (by omega) hoffset

theorem mergeAccs_isSome {start : Nat} (hsecret : start + 64 ≤ secret.length)
    (result : BitVec 64) : (mergeAccs acc secret start result).isSome := by
  have hmixed : ∀ i : Fin 4, ∃ mixed,
      mixTwoAccs acc i secret (start + i.val * 16) = some mixed := by
    intro i
    have hi := i.isLt
    rw [mixTwoAccs, read64le_eq (by omega), read64le_eq (by omega)]
    exact ⟨_, rfl⟩
  choose mixed hmixed using hmixed
  simp only [mergeAccs, hmixed, Option.bind_eq_bind, Option.bind_some]
  rw [foldlM_some_eq]
  rfl

theorem merge_isSome (O : Output) (hO : O = output64 ∨ O = output128)
    (hsecret : secret.length = 192) (totalLen : BitVec 64) :
    (O.merge acc secret totalLen).isSome := by
  rcases hO with rfl | rfl
  · exact mergeAccs_isSome (by rw [hsecret]; decide) _
  · obtain ⟨lo, hlo⟩ := Option.isSome_iff_exists.mp (@mergeAccs_isSome secret acc
      SECRET_MERGEACCS_START (by rw [hsecret]; decide) (totalLen * PRIME64_1))
    obtain ⟨hi, hhi⟩ := Option.isSome_iff_exists.mp (@mergeAccs_isSome secret acc
      117 (by rw [hsecret]; decide) (~~~(totalLen * PRIME64_2)))
    have hstart : subUsize secret.length (ACC_NB * 8 + SECRET_MERGEACCS_START) = some 117 := by
      rw [hsecret]
      rfl
    change (mergeLong128 acc secret totalLen).isSome
    rw [mergeLong128, hlo, hstart]
    simp only [Option.bind_eq_bind, Option.bind_some, hhi]
    rfl

theorem longScalar_eq_longDispatch (O : Output) (hsecret : secret.length = 192)
    (hinput : 64 < input.length) :
    longScalar O input secret = longDispatch O kernel input secret := by
  have hoffset : subUsize secret.length (STRIPE_LEN + SECRET_LASTACC_START) =
      some LAST_STRIPE_SECRET_OFFSET := by
    rw [hsecret]
    rfl
  rw [longScalar, longDispatch, hashLongScalar, hashLongDispatch, hoffset]
  simp only [Option.bind_eq_bind, Option.bind_some]
  rw [hashLongInternalLoop_eq .scalar hsecret hinput, hashLongInternalLoop_eq kernel hsecret hinput]

theorem constHash_eq_checksum (O : Output) (data : Bytes) :
    constHash O data = checksum O kernel data := by
  unfold constHash checksum
  split
  · rfl
  · next hlong =>
    have hsize : MID_SIZE_MAX = 240 := rfl
    exact longScalar_eq_longDispatch kernel O DEFAULT_SECRET.length_eq (by omega)

end

/-! ## Short inputs -/

theorem bind_isSome {α β : Type} {x : Option α} {f : α → Option β} (hx : x.isSome)
    (hf : ∀ a, (f a).isSome) : (x >>= f).isSome := by
  obtain ⟨a, rfl⟩ := Option.isSome_iff_exists.mp hx
  exact hf a

theorem foldlM_isSome {α β : Type} {f : α → β → Option α} {l : List β}
    (h : ∀ a, ∀ b ∈ l, (f a b).isSome) (a : α) : (l.foldlM f a).isSome := by
  induction l generalizing a with
  | nil => rfl
  | cons b l ih =>
    rw [List.foldlM_cons]
    exact bind_isSome (h a b List.mem_cons_self) fun a' =>
      ih (fun a b hb => h a b (List.mem_cons_of_mem _ hb)) a'

theorem subUsize_bind_isSome {α : Type} {a b : Nat} {f : Nat → Option α} (h : b ≤ a)
    (hf : (f (a - b)).isSome) : (subUsize a b >>= f).isSome := by
  rw [subUsize_eq h]
  exact hf

theorem read64le_isSome {data : Bytes} {offset : Nat} (h : offset + 8 ≤ data.length) :
    (read64le data offset).isSome := by
  rw [read64le_eq h]
  rfl

theorem octet_isSome {data : Bytes} {i : Nat} (h : i < data.length) : data[i]?.isSome := by
  rw [List.getElem?_eq_getElem h]
  rfl

section

variable {input secret : Bytes} (seed : BitVec 64)

theorem mix16b_isSome {inputOffset secretOffset : Nat} (hinput : inputOffset + 16 ≤ input.length)
    (hsecret : secretOffset + 16 ≤ secret.length) :
    (mix16b input inputOffset secret secretOffset seed).isSome :=
  bind_isSome (read64le_isSome (by omega)) fun _ =>
    bind_isSome (read64le_isSome (by omega)) fun _ =>
    bind_isSome (read64le_isSome (by omega)) fun _ =>
      bind_isSome (read64le_isSome (by omega)) fun _ => rfl

theorem mix32b_isSome (acc : Halves) {input1Off input2Off secretOff : Nat}
    (hinput1 : input1Off + 16 ≤ input.length) (hinput2 : input2Off + 16 ≤ input.length)
    (hsecret : secretOff + 32 ≤ secret.length) :
    (mix32b acc input input1Off input2Off secret secretOff seed).isSome :=
  bind_isSome (mix16b_isSome seed hinput1 (by omega)) fun _ =>
    bind_isSome (read64le_isSome (by omega)) fun _ =>
      bind_isSome (read64le_isSome (by omega)) fun _ =>
      bind_isSome (mix16b_isSome seed hinput2 (by omega)) fun _ =>
        bind_isSome (read64le_isSome (by omega)) fun _ =>
          bind_isSome (read64le_isSome (by omega)) fun _ => rfl

theorem mixPair_isSome (acc : BitVec 64) {front back secretOffset : Nat}
    (hfront : front + 16 ≤ input.length) (hback : 16 ≤ back ∧ back ≤ input.length)
    (hsecret : secretOffset + 32 ≤ secret.length) :
    (mixPair acc input front back secret secretOffset seed).isSome := by
  exact subUsize_bind_isSome hback.2 (bind_isSome (mix16b_isSome seed hfront (by omega)) fun _ =>
    bind_isSome (mix16b_isSome seed (by omega) (by omega)) fun _ => rfl)

theorem mix32bPair_isSome (acc : Halves) {front back secretOff : Nat}
    (hfront : front + 16 ≤ input.length) (hback : 16 ≤ back ∧ back ≤ input.length)
    (hsecret : secretOff + 32 ≤ secret.length) :
    (mix32bPair acc input front back secret secretOff seed).isSome := by
  exact subUsize_bind_isSome hback.2 (mix32b_isSome seed acc hfront (by omega) hsecret)

theorem ite_bind_isSome {α β : Type} {p : Prop} [Decidable p] {x : Option α} {a : α}
    {f : α → Option β} (hx : p → x.isSome) (hf : ∀ a, (f a).isSome) :
    (if p then x >>= f else some a >>= f).isSome := by
  split
  · next hp => exact bind_isSome (hx hp) hf
  · exact hf a

theorem xxh3_64_0to16_isSome (hsecret : secret.length = 192) (hinput : input.length ≤ 16) :
    (xxh3_64_0to16 input seed secret).isSome := by
  have hread32 : ∀ offset, offset ≤ 184 → (read32le secret offset).isSome :=
    fun offset h => read32le_isSome (by omega)
  have hread : ∀ offset, offset ≤ 184 → (read64le secret offset).isSome :=
    fun offset h => read64le_isSome (by omega)
  unfold xxh3_64_0to16
  split
  · exact bind_isSome (hread _ (by decide)) fun _ => bind_isSome (hread _ (by decide)) fun _ =>
      bind_isSome (hread _ (by decide)) fun _ => bind_isSome (hread _ (by decide)) fun _ =>
        subUsize_bind_isSome (by omega) (bind_isSome (read64le_isSome (by omega)) fun _ =>
          bind_isSome (read64le_isSome (by omega)) fun _ => rfl)
  split
  · exact subUsize_bind_isSome (by omega) (bind_isSome (read32le_isSome (by omega)) fun _ =>
      bind_isSome (read32le_isSome (by omega)) fun _ => bind_isSome (hread _ (by decide)) fun _ =>
        bind_isSome (hread _ (by decide)) fun _ => rfl)
  split
  · next hne =>
    have hpos := List.length_pos_of_ne_nil hne
    exact subUsize_bind_isSome hpos <| bind_isSome (octet_isSome (by omega)) fun _ =>
      bind_isSome (octet_isSome (by omega)) fun _ =>
        bind_isSome (octet_isSome (by omega)) fun _ =>
          bind_isSome (hread32 _ (by decide)) fun _ =>
            bind_isSome (hread32 _ (by decide)) fun _ => rfl
  · exact bind_isSome (hread _ (by decide)) fun _ => bind_isSome (hread _ (by decide)) fun _ => rfl

theorem xxh3_64_short_isSome (hsecret : secret.length = 192) (hinput : input.length ≤ 240) :
    (xxh3_64_short input seed secret).isSome := by
  unfold xxh3_64_short
  split
  · next h => exact xxh3_64_0to16_isSome seed hsecret h
  next hmore =>
  split
  · unfold xxh3_64_7to128
    exact ite_bind_isSome (fun _ => mixPair_isSome seed _ (by omega) (by omega) (by omega)) fun _ =>
      ite_bind_isSome (fun _ => mixPair_isSome seed _ (by omega) (by omega) (by omega)) fun _ =>
      ite_bind_isSome (fun _ => mixPair_isSome seed _ (by omega) (by omega) (by omega)) fun _ =>
      bind_isSome (mixPair_isSome seed _ (by omega) (by omega) (by omega)) fun _ => rfl
  · have hmin : SECRET_SIZE_MIN = 136 := rfl
    rw [xxh3_64_129to240, hmin]
    refine bind_isSome (foldlM_isSome (fun acc i hi => ?_) _) fun _ =>
      bind_isSome (foldlM_isSome (fun acc i hi => ?_) _) fun _ => subUsize_bind_isSome (by omega)
      (bind_isSome (mix16b_isSome seed (by omega) (by omega)) fun _ => rfl)
    · have hi := List.mem_range.mp hi
      exact bind_isSome (mix16b_isSome seed (by omega) (by omega)) fun _ => rfl
    · have hi := List.mem_range.mp hi
      exact bind_isSome (mix16b_isSome seed (by omega) (by omega)) fun _ => rfl

theorem xxh3_128_0to16_isSome (hsecret : secret.length = 192) (hinput : input.length ≤ 16) :
    (xxh3_128_0to16 input seed secret).isSome := by
  have hread32 : ∀ offset, offset ≤ 184 → (read32le secret offset).isSome :=
    fun offset h => read32le_isSome (by omega)
  have hread : ∀ offset, offset ≤ 184 → (read64le secret offset).isSome :=
    fun offset h => read64le_isSome (by omega)
  unfold xxh3_128_0to16
  split
  · exact bind_isSome (hread _ (by decide)) fun _ => bind_isSome (hread _ (by decide)) fun _ =>
      bind_isSome (hread _ (by decide)) fun _ => bind_isSome (hread _ (by decide)) fun _ =>
        subUsize_bind_isSome (by omega) (bind_isSome (read64le_isSome (by omega)) fun _ =>
          bind_isSome (read64le_isSome (by omega)) fun _ => rfl)
  split
  · exact subUsize_bind_isSome (by omega) (bind_isSome (read32le_isSome (by omega)) fun _ =>
      bind_isSome (read32le_isSome (by omega)) fun _ => bind_isSome (hread _ (by decide)) fun _ =>
        bind_isSome (hread _ (by decide)) fun _ => rfl)
  split
  · next hne =>
    have hpos := List.length_pos_of_ne_nil hne
    exact subUsize_bind_isSome hpos <| bind_isSome (octet_isSome (by omega)) fun _ =>
      bind_isSome (octet_isSome (by omega)) fun _ =>
        bind_isSome (octet_isSome (by omega)) fun _ =>
          bind_isSome (hread32 _ (by decide)) fun _ =>
            bind_isSome (hread32 _ (by decide)) fun _ =>
            bind_isSome (hread32 _ (by decide)) fun _ =>
              bind_isSome (hread32 _ (by decide)) fun _ => rfl
  · exact bind_isSome (hread _ (by decide)) fun _ => bind_isSome (hread _ (by decide)) fun _ =>
      bind_isSome (hread _ (by decide)) fun _ => bind_isSome (hread _ (by decide)) fun _ => rfl

theorem xxh3_128_short_isSome (hsecret : secret.length = 192) (hinput : input.length ≤ 240) :
    (xxh3_128_short input seed secret).isSome := by
  unfold xxh3_128_short
  split
  · next h => exact xxh3_128_0to16_isSome seed hsecret h
  next hmore =>
  split
  · unfold xxh3_128_7to128
    exact ite_bind_isSome
      (fun _ => mix32bPair_isSome seed _ (by omega) (by omega) (by omega)) fun _ =>
      ite_bind_isSome (fun _ => mix32bPair_isSome seed _ (by omega) (by omega) (by omega)) fun _ =>
      ite_bind_isSome (fun _ => mix32bPair_isSome seed _ (by omega) (by omega) (by omega)) fun _ =>
      bind_isSome (mix32bPair_isSome seed _ (by omega) (by omega) (by omega)) fun _ => rfl
  · have hmin : SECRET_SIZE_MIN = 136 := rfl
    rw [xxh3_128_129to240, hmin]
    refine bind_isSome (foldlM_isSome (fun acc i hi => ?_) _) fun _ =>
      bind_isSome (foldlM_isSome (fun acc i hi => ?_) _) fun _ => subUsize_bind_isSome (by omega)
      (subUsize_bind_isSome (by omega)
      (bind_isSome (mix32b_isSome _ _ (by omega) (by omega) (by omega)) fun _ => rfl))
    · have hi := List.mem_range.mp hi
      exact mix32b_isSome seed acc (by omega) (by omega) (by omega)
    · have hi := List.mem_range.mp hi
      exact mix32b_isSome seed acc (by omega) (by omega) (by omega)

theorem short_isSome (O : Output) (hO : O = output64 ∨ O = output128)
    (hsecret : secret.length = 192) (hinput : input.length ≤ 240) :
    (O.short input seed secret).isSome := by
  rcases hO with rfl | rfl
  · exact xxh3_64_short_isSome seed hsecret hinput
  · exact xxh3_128_short_isSome seed hsecret hinput

end

/-! ## The streaming state -/

namespace Xxh3State

variable (kernel : Kernel) {s : Xxh3State} {message data : Bytes} {count : Nat}

/-- The buffer still has the last consumed stripe at its end. -/
def KeepsLast (s : Xxh3State) (message : Bytes) (count : Nat) : Prop :=
  s.buffer.octets.drop 192 = (message.drop (64 * (count - 1))).take 64

structure Fed (s : Xxh3State) (message : Bytes) (count : Nat) : Prop where
  acc : s.acc = folded s.secret.octets 0 count INITIAL_ACC message
  soFar : s.nbStripesSoFar = count % 16
  total : s.totalLen.toNat = message.length
  size : 64 * count + s.bufferedSize = message.length
  fits : s.bufferedSize ≤ 256
  buffered : s.buffer.octets.take s.bufferedSize = message.drop (64 * count)
  consumed : count = 0 ∨ (4 ≤ count ∧ 0 < s.bufferedSize ∧
    (s.bufferedSize ≤ 192 → s.KeepsLast message count))

/-- As `Fed`, with `data` behind the consumed stripes and nothing in the buffer. -/
structure Between (s : Xxh3State) (message : Bytes) (count : Nat) (data : Bytes) : Prop where
  acc : s.acc = folded s.secret.octets 0 count INITIAL_ACC message
  soFar : s.nbStripesSoFar = count % 16
  total : s.totalLen.toNat = message.length
  size : 64 * count + data.length = message.length
  rest : message.drop (64 * count) = data
  consumed : (count = 0 ∧ 256 < data.length) ∨
    (4 ≤ count ∧ 0 < data.length ∧ s.KeepsLast message count)

theorem fed_new (secret : FixedBytes 192) (seed : BitVec 64) (useSeed : Bool) :
    (new secret seed useSeed).Fed [] 0 where
  acc := rfl
  soFar := rfl
  total := rfl
  size := rfl
  fits := Nat.zero_le _
  buffered := rfl
  consumed := .inl rfl

def SameKey (s s' : Xxh3State) : Prop :=
  s'.secret = s.secret ∧ s'.seed = s.seed ∧ s'.useSeed = s.useSeed

theorem SameKey.trans {s s' s'' : Xxh3State} (h : s.SameKey s') (h' : s'.SameKey s'') :
    s.SameKey s'' :=
  ⟨h'.1.trans h.1, h'.2.1.trans h.2.1, h'.2.2.trans h.2.2⟩

theorem drop_more (message : Bytes) (a b : Nat) :
    (message.drop (64 * a)).drop (64 * b) = message.drop (64 * (a + b)) := by
  rw [List.drop_drop, Nat.mul_add]

theorem Fed.fill_spec (h : s.Fed message count) (hdata : 256 - s.bufferedSize < data.length)
    {total : BitVec 64} (htotal : total.toNat = (message ++ data).length) :
    ∃ s' rest count',
      ({ s with totalLen := total } : Xxh3State).fill kernel data = some (s', rest) ∧
      s'.Between (message ++ data) count' rest ∧ s.SameKey s' := by
  have hsize := h.size
  have hfits := h.fits
  have hlength : (message ++ data).length = message.length + data.length := List.length_append
  unfold fill
  by_cases hempty : s.bufferedSize > 0
  · have hload : subUsize INTERNAL_BUFFER_SIZE s.bufferedSize = some (256 - s.bufferedSize) :=
      subUsize_eq hfits
    have hroom : s.bufferedSize + (data.take (256 - s.bufferedSize)).length = 256 := by
      rw [List.length_take]
      omega
    obtain ⟨buffer, hcopy, hoctets⟩ := s.buffer.copyInto_take (Nat.le_of_eq hroom)
    rw [hroom, List.take_of_length_le (Nat.le_of_eq buffer.length_eq), h.buffered] at hoctets
    have hmod : count % 16 < 16 := Nat.mod_lt _ (by decide)
    have hstripes : INTERNAL_BUFFER_STRIPES = 4 := rfl
    have hfull : 64 * 4 ≤ buffer.octets.length := by rw [buffer.length_eq]
    have hconsume := @consumeStripes_eq kernel s.secret.octets buffer.octets (count % 16)
      4 s.acc s.secret.length_eq hmod hfull
    have hbehind : (message ++ data).drop (64 * count) =
        buffer.octets ++ data.drop (256 - s.bufferedSize) := by
      rw [hoctets, List.append_assoc, List.take_append_drop,
        List.drop_append_of_le_length (by omega)]
    rw [if_pos hempty, hload, hstripes]
    simp only [Option.bind_eq_bind, Option.bind_some, hcopy, h.soFar, hconsume]
    refine ⟨_, _, count + 4, rfl, ⟨?_, ?_, htotal, ?_, ?_, .inr ⟨by omega, ?_, ?_⟩⟩, rfl, rfl, rfl⟩
    · have hsplit := @folded_add s.secret.octets (message ++ data) 0 count 4 INITIAL_ACC (by omega)
      have hbefore : folded s.secret.octets 0 count INITIAL_ACC (message ++ data) = s.acc :=
        (folded_append data (by omega)).trans h.acc.symm
      rw [hbefore, hbehind, folded_append _ hfull, Nat.zero_add] at hsplit
      rw [hsplit]
      exact folded_congr (Nat.mod_mod _ _)
    · change (count % 16 + 4) % 16 = (count + 4) % 16
      omega
    · simp only [List.length_drop]
      omega
    · rw [← drop_more, hbehind]
      exact List.drop_left' buffer.length_eq
    · simp only [List.length_drop]
      omega
    · change buffer.octets.drop 192 = _
      rw [show count + 4 - 1 = count + 3 by omega, ← drop_more, hbehind,
        List.drop_append_of_le_length (by rw [buffer.length_eq]; decide),
        List.take_append_of_le_length (by rw [List.length_drop, buffer.length_eq]),
        List.take_of_length_le (by rw [List.length_drop, buffer.length_eq])]
  · have hcount : count = 0 := h.consumed.resolve_right fun hsome => hempty hsome.2.1
    subst hcount
    have hnone : message = [] := List.eq_nil_of_length_eq_zero (by omega)
    subst hnone
    have hacc : s.acc = folded s.secret.octets 0 0 INITIAL_ACC ([] ++ data) :=
      h.acc.trans (folded_zero.trans folded_zero.symm)
    refine ⟨_, _, 0, if_neg hempty,
      ⟨hacc, h.soFar, htotal, ?_, rfl, .inl ⟨rfl, by omega⟩⟩, rfl, rfl, rfl⟩
    rw [hlength, List.length_nil]

theorem Between.absorb_spec (h : s.Between message count data) :
    ∃ s' rest count', s.absorb kernel data = some (s', rest) ∧ s'.Between message count' rest ∧
      4 ≤ count' ∧ rest.length ≤ 256 ∧ s.SameKey s' := by
  have hsize := h.size
  unfold absorb
  by_cases hlong : data.length > INTERNAL_BUFFER_SIZE
  · have hbig : 256 < data.length := hlong
    have hstripe : STRIPE_LEN = 64 := rfl
    have hmod : count % 16 < 16 := Nat.mod_lt _ (by decide)
    have hwhole : 64 * ((data.length - 1) / 64) ≤ data.length := by omega
    have hconsume := @consumeStripes_eq kernel s.secret.octets data (count % 16)
      ((data.length - 1) / 64) s.acc s.secret.length_eq hmod hwhole
    have hlast : ((data.drop ((data.length - 1) / 64 * 64 - 64)).take 64).length = 64 := by
      rw [List.length_take, List.length_drop]
      omega
    obtain ⟨buffer, hcopy, hoctets⟩ := s.buffer.copyInto_octets
      (show INTERNAL_BUFFER_SIZE - 64 + _ ≤ 256 by rw [hlast]; decide)
    rw [if_pos hlong, hstripe]
    simp only [Option.bind_eq_bind, h.soFar, hconsume, Option.bind_some, hcopy]
    refine ⟨_, _, count + (data.length - 1) / 64, rfl,
      ⟨?_, ?_, h.total, ?_, ?_, .inr ⟨by omega, ?_, ?_⟩⟩, by omega, ?_, rfl, rfl, rfl⟩
    · have hsplit := @folded_add s.secret.octets message 0 count ((data.length - 1) / 64)
        INITIAL_ACC (by omega)
      rw [← h.acc, h.rest, Nat.zero_add] at hsplit
      rw [hsplit]
      exact folded_congr (Nat.mod_mod _ _)
    · change (count % 16 + (data.length - 1) / 64) % 16 = _
      omega
    · rw [List.length_drop]
      omega
    · rw [← drop_more, h.rest, Nat.mul_comm]
    · rw [List.length_drop]
      omega
    · change buffer.octets.drop 192 = _
      have hfront : (s.buffer.octets.take (INTERNAL_BUFFER_SIZE - 64)).length = 192 := by
        rw [List.length_take, s.buffer.length_eq]
        rfl
      have hbehind : (s.buffer.octets.drop (INTERNAL_BUFFER_SIZE - 64 +
          ((data.drop ((data.length - 1) / 64 * 64 - 64)).take 64).length)) = [] := by
        rw [hlast]
        exact List.drop_eq_nil_of_le (Nat.le_of_eq s.buffer.length_eq)
      rw [hoctets, hbehind, List.append_nil, List.drop_left' hfront,
        show count + (data.length - 1) / 64 - 1 = count + ((data.length - 1) / 64 - 1) by omega,
        ← drop_more, h.rest, show (data.length - 1) / 64 * 64 - 64 =
          64 * ((data.length - 1) / 64 - 1) by omega]
    · rw [List.length_drop]
      omega
  · have hshort : ¬256 < data.length := hlong
    have hfour : 4 ≤ count := by
      rcases h.consumed with ⟨-, hbig⟩ | ⟨hfour, -⟩
      · omega
      · exact hfour
    exact ⟨s, data, count, if_neg hlong, h, hfour, by omega, rfl, rfl, rfl⟩

theorem Between.keep_spec (h : s.Between message count data) (hcount : 4 ≤ count)
    (hdata : data.length ≤ 256) :
    ∃ s', s.keep data = some s' ∧ s'.Fed message count ∧ s.SameKey s' := by
  obtain ⟨buffer, hcopy, hoctets⟩ := s.buffer.copyInto_octets
    (show 0 + data.length ≤ 256 by omega)
  rw [List.take_zero, List.nil_append, Nat.zero_add] at hoctets
  obtain ⟨hpos, hkeeps⟩ : 0 < data.length ∧ s.KeepsLast message count := by
    rcases h.consumed with ⟨hzero, -⟩ | ⟨-, hpos, hkeeps⟩
    · omega
    · exact ⟨hpos, hkeeps⟩
  refine ⟨{ s with buffer := buffer, bufferedSize := data.length }, by rw [keep, hcopy]; rfl,
    ⟨h.acc, h.soFar, h.total, h.size, hdata, ?_,
    .inr ⟨hcount, hpos, fun hless => ?_⟩⟩, rfl, rfl, rfl⟩
  · change buffer.octets.take data.length = _
    rw [hoctets, List.take_left, h.rest]
  · change buffer.octets.drop 192 = _
    have hless : data.length ≤ 192 := hless
    rw [← hkeeps, hoctets, List.drop_append, List.drop_eq_nil_of_le hless, List.nil_append,
      List.drop_drop, Nat.add_sub_cancel' hless]

theorem Fed.update (h : s.Fed message count) (hlength : (message ++ data).length < 2 ^ 64) :
    ∃ s' count', s.update kernel data = some s' ∧ s'.Fed (message ++ data) count' ∧
      s.SameKey s' := by
  have hsize := h.size
  have hfits := h.fits
  rw [List.length_append] at hlength
  have hadd : addLength s.totalLen data.length =
      some (s.totalLen + BitVec.ofNat 64 data.length) := by
    rw [addLength, if_pos (by rw [h.total]; exact hlength)]
  have htotal : (s.totalLen + BitVec.ofNat 64 data.length).toNat = (message ++ data).length := by
    rw [BitVec.toNat_add, BitVec.toNat_ofNat, h.total, List.length_append]
    omega
  have hroom : subUsize INTERNAL_BUFFER_SIZE s.bufferedSize = some (256 - s.bufferedSize) :=
    subUsize_eq hfits
  unfold Xxh3State.update
  simp only [hadd, hroom, Option.bind_eq_bind, Option.bind_some]
  by_cases hsmall : data.length ≤ 256 - s.bufferedSize
  · have hplace : s.bufferedSize + data.length ≤ 256 := by omega
    obtain ⟨buffer, hcopy, hoctets⟩ := s.buffer.copyInto_octets hplace
    rw [if_pos hsmall, hcopy]
    simp only [Option.bind_some]
    have hfront : (s.buffer.octets.take s.bufferedSize).length = s.bufferedSize := by
      rw [List.length_take, s.buffer.length_eq]
      omega
    have hboth : (s.buffer.octets.take s.bufferedSize ++ data).length =
        s.bufferedSize + data.length := by
      rw [List.length_append, hfront]
    refine ⟨_, count, rfl, ⟨?_, h.soFar, htotal, ?_, hplace, ?_, ?_⟩, rfl, rfl, rfl⟩
    · rw [folded_append data (by omega)]
      exact h.acc
    · rw [List.length_append]
      simp only
      omega
    · change buffer.octets.take (s.bufferedSize + data.length) = _
      rw [hoctets, List.take_left' hboth, h.buffered, List.drop_append_of_le_length (by omega)]
    · refine h.consumed.imp id fun hconsumed => ?_
      obtain ⟨hfour, hpos, hkeeps⟩ := hconsumed
      refine ⟨hfour, Nat.add_pos_left hpos _, fun hless => ?_⟩
      have hless : s.bufferedSize + data.length ≤ 192 := hless
      have hlast := hkeeps (by omega)
      change buffer.octets.drop 192 = _
      rw [hoctets, List.drop_append, List.drop_eq_nil_of_le (by omega), List.nil_append,
        List.drop_drop, hboth, Nat.add_sub_cancel' hless, hlast,
        List.drop_append_of_le_length (by omega),
        List.take_append_of_le_length (by rw [List.length_drop]; omega)]
  · rw [if_neg hsmall]
    obtain ⟨s₁, rest₁, count₁, hfill, hbetween, hkey₁⟩ :=
      h.fill_spec kernel (by omega) htotal
    obtain ⟨s₂, rest₂, count₂, habsorb, hbetween₂, hfour, hshort, hkey₂⟩ :=
      hbetween.absorb_spec kernel
    obtain ⟨s₃, hkeep, hfed, hkey₃⟩ := hbetween₂.keep_spec hfour hshort
    refine ⟨s₃, count₂, ?_, hfed, (hkey₁.trans hkey₂).trans hkey₃⟩
    simp only [hfill, habsorb, hkeep, Option.bind_some]

theorem Fed.updates {parts : List Bytes} (h : s.Fed message count)
    (hlength : (message ++ parts.flatten).length < 2 ^ 64) :
    ∃ s' count', s.updates kernel parts = some s' ∧ s'.Fed (message ++ parts.flatten) count' ∧
      s.SameKey s' := by
  induction parts generalizing s message count with
  | nil => exact ⟨s, count, rfl, by simpa using h, rfl, rfl, rfl⟩
  | cons data parts ih =>
    rw [List.flatten_cons, ← List.append_assoc] at hlength ⊢
    have hshort : (message ++ data).length < 2 ^ 64 := by
      rw [List.length_append] at hlength
      omega
    obtain ⟨s', count', hupdate, h', hkey⟩ := h.update kernel hshort
    obtain ⟨s'', count'', hupdates, h'', hkey'⟩ := ih h' hlength
    refine ⟨s'', count'', ?_, h'', hkey.trans hkey'⟩
    rw [Xxh3State.updates, hupdate]
    exact hupdates

theorem Fed.digestLongAcc (h : s.Fed message count) (hlong : 240 < message.length) :
    s.digestLongAcc kernel = some (longAcc s.secret.octets message) := by
  have hsize := h.size
  have hfits := h.fits
  have hstripe : STRIPE_LEN = 64 := rfl
  have hoffset : LAST_STRIPE_SECRET_OFFSET + 64 ≤ s.secret.octets.length := by
    rw [s.secret.length_eq]
    decide
  have hbehind : s.buffer.octets =
      message.drop (64 * count) ++ s.buffer.octets.drop s.bufferedSize := by
    rw [← h.buffered, List.take_append_drop]
  unfold Xxh3State.digestLongAcc
  rw [hstripe]
  by_cases hfull : s.bufferedSize ≥ 64
  · have hmod : count % 16 < 16 := Nat.mod_lt _ (by decide)
    have hwhole : 64 * ((s.bufferedSize - 1) / 64) ≤ s.buffer.octets.length := by
      rw [s.buffer.length_eq]
      omega
    have hinside : s.bufferedSize - 64 + 64 ≤ s.buffer.octets.length := by
      rw [s.buffer.length_eq]
      omega
    have hsplit := @folded_add s.secret.octets message 0 count ((s.bufferedSize - 1) / 64)
      INITIAL_ACC (by omega)
    rw [← h.acc, Nat.zero_add, show count + (s.bufferedSize - 1) / 64 = (message.length - 1) / 64
      by omega] at hsplit
    have hacc : folded s.secret.octets (count % 16) ((s.bufferedSize - 1) / 64) s.acc
        s.buffer.octets =
        folded s.secret.octets 0 ((message.length - 1) / 64) INITIAL_ACC message := by
      rw [hsplit, hbehind, folded_append _ (by rw [List.length_drop]; omega)]
      exact folded_congr (Nat.mod_mod _ _)
    have hlast : (s.buffer.octets.drop (s.bufferedSize - 64)).take 64 =
        message.drop (message.length - 64) := by
      rw [hbehind, List.drop_append_of_le_length (by rw [List.length_drop]; omega), List.drop_drop,
        show 64 * count + (s.bufferedSize - 64) = message.length - 64 by omega,
        List.take_left' (by rw [List.length_drop]; omega)]
    rw [if_pos hfull, h.soFar]
    simp only [Option.bind_eq_bind, consumeStripes_eq kernel s.secret.length_eq hmod hwhole,
      Option.bind_some]
    rw [accumulate512_eq kernel _ hinside hoffset, hacc, longAcc, ← accumulated_take, hlast]
  · obtain ⟨hfour, hpos, hkeeps⟩ := h.consumed.resolve_left fun hzero => by omega
    have hlast := hkeeps (by omega)
    have hback : s.buffer.octets.drop (INTERNAL_BUFFER_SIZE - (64 - s.bufferedSize)) =
        ((message.drop (64 * (count - 1))).take 64).drop s.bufferedSize := by
      rw [← hlast, List.drop_drop]
      congr 1
      change 256 - (64 - s.bufferedSize) = 192 + s.bufferedSize
      omega
    have hstripeLength : ((message.drop (64 * (count - 1))).take 64).length = 64 := by
      rw [List.length_take, List.length_drop]
      omega
    have hrebuilt : ((message.drop (64 * (count - 1))).take 64).drop s.bufferedSize ++
        message.drop (64 * count) = message.drop (message.length - 64) := by
      rw [← List.drop_append_of_le_length (by omega : s.bufferedSize ≤ _),
        show 64 * count = 64 * (count - 1) + 64 by omega, ← List.drop_drop,
        List.take_append_drop, List.drop_drop]
      congr 1
      omega
    rw [if_neg hfull]
    simp only [hback, s.buffer.upTo_eq (show s.bufferedSize ≤ 256 from hfits), h.buffered,
      Option.bind_eq_bind, Option.bind_some]
    rw [hrebuilt, accumulate512_eq kernel _ (by rw [List.length_drop]; omega) hoffset, h.acc,
      longAcc, List.drop_zero, show (message.length - 1) / 64 = count by omega]

theorem Fed.digest (O : Output) (h : s.Fed message count) :
    s.digest kernel O = s.hash kernel O message := by
  have hsize := h.size
  have hmid : MID_SIZE_MAX = 240 := rfl
  unfold Xxh3State.digest Xxh3State.hash
  rw [h.total, hmid]
  by_cases hshort : message.length ≤ 240
  · obtain rfl : count = 0 := by
      rcases h.consumed with hzero | ⟨hfour, -, -⟩
      · exact hzero
      · omega
    have hbuffered := h.buffered
    rw [Nat.mul_zero, List.drop_zero] at hbuffered
    rw [if_pos hshort, if_pos hshort, digestShort, s.buffer.upTo_eq h.fits, hbuffered]
    rfl
  · rw [if_neg hshort, if_neg hshort, digestLong, h.digestLongAcc kernel (by omega), longDispatch,
      hashLongDispatch, hashLongInternalLoop_eq kernel s.secret.length_eq (by omega)]
    simp only [Option.bind_eq_bind, Option.bind_some]
    rw [← h.total, BitVec.ofNat_toNat, BitVec.setWidth_eq]

theorem hash_congr (O : Output) {s s' : Xxh3State} (h : s.SameKey s') (data : Bytes) :
    s'.hash kernel O data = s.hash kernel O data := by
  rw [hash, hash, h.1, h.2.1, h.2.2]

theorem hash_isSome {O : Output} (hO : O = output64 ∨ O = output128) (s : Xxh3State)
    (data : Bytes) : (s.hash kernel O data).isSome := by
  have hmid : MID_SIZE_MAX = 240 := rfl
  unfold hash
  rw [hmid]
  split
  · next hshort =>
    split
    · exact short_isSome _ O hO DEFAULT_SECRET.length_eq hshort
    · exact short_isSome _ O hO s.secret.length_eq hshort
  · rw [longDispatch, hashLongDispatch,
      hashLongInternalLoop_eq kernel s.secret.length_eq (by omega)]
    exact merge_isSome O hO s.secret.length_eq _

def streamed (O : Output) (s : Xxh3State) (parts : List Bytes) : Option O.Value :=
  (s.updates kernel parts).bind fun s => s.digest kernel O

theorem streamed_new (O : Output) (secret : FixedBytes 192) (seed : BitVec 64) (useSeed : Bool)
    {parts : List Bytes} (hlength : parts.flatten.length < 2 ^ 64) :
    (new secret seed useSeed).streamed kernel O parts =
      (new secret seed useSeed).hash kernel O parts.flatten := by
  obtain ⟨s, count, hupdates, hfed, hkey⟩ :=
    (fed_new secret seed useSeed).updates kernel (by simpa using hlength)
  rw [streamed, hupdates, Option.bind_some, hfed.digest kernel O, hash_congr kernel O hkey,
    List.nil_append]

theorem hash_default (O : Output) (data : Bytes) :
    (withSeed 0).hash kernel O data = constHash O data := by
  rw [constHash_eq_checksum kernel O]
  rfl

/-- However the input is cut, the digest is that of the input in one piece, whatever the secret,
the seed and the kernel.  With the default secret it is what the `const` function and
`checksum` compute.  No read is out of range. -/
theorem updates_digest (O : Output) (kernel : Kernel) (secret : FixedBytes 192) (seed : BitVec 64)
    (useSeed : Bool) (parts : List Bytes) (hlength : parts.flatten.length < 2 ^ 64) :
    (((new secret seed useSeed).updates kernel parts).bind fun s => s.digest kernel O) =
        (new secret seed useSeed).hash kernel O parts.flatten ∧
      ((withSeed 0).hash kernel O parts.flatten = constHash O parts.flatten ∧
        constHash O parts.flatten = checksum O kernel parts.flatten) ∧
      (O = output64 ∨ O = output128 →
        ((new secret seed useSeed).hash kernel O parts.flatten).isSome) :=
  ⟨streamed_new kernel O secret seed useSeed hlength,
    ⟨hash_default kernel O _, constHash_eq_checksum kernel O _⟩, fun hO => hash_isSome kernel hO _ _⟩

theorem updates_digest_seeded : (((withSeed 7).updates .avx2 [[1], [], List.replicate 300 2]).bind
    fun s => s.digest .avx2 output64).isSome := by
  have h := updates_digest output64 .avx2 (customDefaultSecretScalar 7) 7 true
    [[1], [], List.replicate 300 2] (by simp [-List.reduceReplicate])
  have hseeded : withSeed 7 = new (customDefaultSecretScalar 7) 7 true := if_neg (by decide)
  rw [hseeded, h.1]
  exact h.2.2 (.inl rfl)

end Xxh3State

open Xxh3State

/-- The value after any updates is that of a single one, and it exists. -/
def SingleUpdate {α : Type} (value : List Bytes → Option α) (parts : List Bytes) : Prop :=
  value parts = value [parts.flatten] ∧ (value parts).isSome

/-- All four hashers, however the input is cut; the second half of each part is about seed 0 and
the default secret. -/
theorem streaming_exact (parts : List Bytes) (hlength : parts.flatten.length < 2 ^ 64) :
    (∀ V, (∀ seed, SingleUpdate (Hasher.streamed V seed) parts) ∧
      Hasher.streamed V 0 parts = Xxhash.checksum V parts.flatten) ∧
    Hasher.streamed Xxh32.variant 0 parts = xxh32 parts.flatten ∧
    Hasher.streamed Xxh64.variant 0 parts = xxh64 parts.flatten ∧
    ∀ kernel, (∀ O, O = output64 ∨ O = output128 →
      (∀ secret seed useSeed,
        SingleUpdate ((new secret seed useSeed).streamed kernel O) parts) ∧
      (withSeed 0).streamed kernel O parts = checksum O kernel parts.flatten) ∧
    (withSeed 0).streamed kernel output64 parts = xxh3_64 parts.flatten ∧
    (withSeed 0).streamed kernel output128 parts = xxh3_128 parts.flatten := by
  have hone : [parts.flatten].flatten = parts.flatten := List.flatten_singleton
  have hlength' : [parts.flatten].flatten.length < 2 ^ 64 := by rwa [hone]
  have hsingle : ∀ V seed, SingleUpdate (Hasher.streamed V seed) parts := fun V seed =>
    ⟨by rw [(Hasher.streamed_eq V seed hlength).1, (Hasher.streamed_eq V seed hlength').1, hone],
      (Hasher.streamed_eq V seed hlength).2⟩
  have hdefault : ∀ kernel O, (withSeed 0).streamed kernel O parts =
      constHash O parts.flatten := fun kernel O =>
    (streamed_new kernel O _ _ _ hlength).trans (hash_default kernel O _)
  refine ⟨fun V => ⟨hsingle V, (hsingle V 0).1.trans ?_⟩, (Hasher.streamed_eq _ 0 hlength).1,
    (Hasher.streamed_eq _ 0 hlength).1, fun kernel => ⟨fun O hO => ⟨fun secret seed useSeed =>
      ⟨?_, ?_⟩, (hdefault kernel O).trans (constHash_eq_checksum kernel O _)⟩,
    hdefault kernel _, hdefault kernel _⟩⟩
  · simp only [Hasher.streamed, Hasher.updates, Xxhash.checksum, Option.bind_eq_bind,
      Option.bind_assoc, Option.bind_some]
  · rw [streamed_new kernel O _ _ _ hlength,
      streamed_new kernel O _ _ _ hlength', hone]
  · rw [streamed_new kernel O _ _ _ hlength]
    exact hash_isSome kernel hO _ _

theorem streaming_exact_cut :
    SingleUpdate ((withSecret (.zeroed 192)).streamed .avx2 output128)
      [[1], [], List.replicate 300 2] :=
  ((streaming_exact [[1], [], List.replicate 300 2] (by simp [-List.reduceReplicate])).2.2.2
    .avx2).1 _ (.inr rfl) |>.1 _ _ _

end Stdx.Xxhash.Xxh3
