import Stdx.Cipher.Aes
import Stdx.Foundation.Keystream

/-!
# AES in counter mode

`aes_ctr.rs` on the software path, `N` round keys.  A call keeps nothing of a
block that it uses in part, and it does not count that block.
-/

namespace Stdx.Cipher.Aes

open Stdx.Foundation

structure AesCtr (N : Nat) where
  roundKeys : Array KeyWord
  counter : FixedBytes 16

namespace AesCtr

variable {N : Nat}

def newInner (key : FixedBytes (keySize N)) : AesCtr N := ⟨expandKey N key, .zeroed 16⟩

def setCounter (cipher : AesCtr N) (counter : FixedBytes 16) : AesCtr N :=
  { cipher with counter }

def xorKeystream (cipher : AesCtr N) (inOut : Bytes) : AesCtr N × Bytes :=
  let (counter, inOut) := xorKeystreamSoft N cipher.roundKeys cipher.counter inOut
  ({ cipher with counter }, inOut)

@[grind =]
def xorKeystreams (cipher : AesCtr N) : List Bytes → AesCtr N × List Bytes
  | [] => (cipher, [])
  | data :: calls =>
    let (cipher, out) := cipher.xorKeystream data
    let (cipher, outs) := cipher.xorKeystreams calls
    (cipher, out :: outs)

end AesCtr

/-! ## The counter -/

def ctrBlock (n : Nat) : FixedBytes 16 := ⟨fixedOctets 16 n, by simp⟩

theorem beValue_ctrBlock (n : Nat) : beValue (ctrBlock n).octets = n % 256 ^ 16 :=
  beValue_fixedOctets 16 n

theorem ctrBlock_eq {block : FixedBytes 16} {n : Nat}
    (h : beValue block.octets = n % 256 ^ 16) : block = ctrBlock n :=
  FixedBytes.ext (beValue_inj (by rw [block.length_eq, (ctrBlock n).length_eq])
    (h.trans (beValue_ctrBlock n).symm))

theorem ctrBlock_beValue (block : FixedBytes 16) : block = ctrBlock (beValue block.octets) := by
  have hlt := beValue_lt block.octets
  rw [block.length_eq] at hlt
  exact ctrBlock_eq (Nat.mod_eq_of_lt hlt).symm

theorem ctrBlock_mod {m n : Nat} (h : m % 256 ^ 16 = n % 256 ^ 16) : ctrBlock m = ctrBlock n :=
  ctrBlock_eq (by rw [beValue_ctrBlock, h])

theorem beValue_incrementOctets (octets : Bytes) :
    beValue (incrementOctets octets).1 +
      (if (incrementOctets octets).2 then 256 ^ octets.length else 0) = beValue octets + 1 := by
  induction octets with
  | nil => rfl
  | cons octet rest ih =>
    have hlength := incrementOctets_length rest
    rw [incrementOctets]
    cases hcarry : (incrementOctets rest).2 with
    | false =>
      rw [hcarry] at ih
      simp only [hcarry, Bool.false_eq_true, if_false, beValue_cons, hlength] at ih ⊢
      omega
    | true =>
      rw [hcarry] at ih
      simp only [hcarry, if_true, beValue_cons, hlength, List.length_cons, pow_succ] at ih ⊢
      by_cases hlast : octet = 255
      · subst hlast
        simp
        omega
      · have hlt : octet.toNat + 1 < 256 := by
          have := octet.toNat_lt
          have hne : octet.toNat ≠ 255 := fun h => hlast (UInt8.toNat_inj.mp h)
          omega
        have hsucc : (octet + 1).toNat = octet.toNat + 1 := by
          rw [UInt8.toNat_add]
          exact Nat.mod_eq_of_lt hlt
        simp only [hsucc, beq_eq_false_iff_ne.mpr hlast, Bool.false_eq_true, if_false]
        rw [Nat.add_mul]
        omega

theorem beValue_incrementBlock (block : FixedBytes 16) :
    beValue (incrementBlock block).octets = (beValue block.octets + 1) % 256 ^ 16 := by
  have hvalue := beValue_incrementOctets block.octets
  have hlt := beValue_lt (incrementOctets block.octets).1
  rw [incrementOctets_length] at hlt
  rw [block.length_eq] at hvalue hlt
  rw [incrementBlock]
  dsimp only
  split at hvalue <;> omega

theorem incrementBlock_ctrBlock (n : Nat) : incrementBlock (ctrBlock n) = ctrBlock (n + 1) :=
  ctrBlock_eq (by rw [beValue_incrementBlock, beValue_ctrBlock, Nat.mod_add_mod])

/-! ## One call -/

/-- Octet `i` of the blocks `E_K(c)`, `E_K(c + 1)`, … laid end to end. -/
def ctrStream (N : Nat) (roundKeys : Array KeyWord) (c i : Nat) : UInt8 :=
  (encryptBlock N roundKeys (ctrBlock (c + i / 16))).octets.getD (i % 16) 0

section call

variable {N : Nat} (roundKeys : Array KeyWord) (c : Nat)

theorem block_getD {m i : Nat} (hi : i < 16) :
    (encryptBlock N roundKeys (ctrBlock (c + m))).octets.getD i 0 =
      ctrStream N roundKeys c (16 * m + i) := by
  rw [ctrStream, show (16 * m + i) / 16 = m by omega, show (16 * m + i) % 16 = i by omega]

theorem xorBlock_stream (m : Nat) {data : Bytes} (hdata : data.length ≤ 16) :
    List.zipWith (· ^^^ ·) data (encryptBlock N roundKeys (ctrBlock (c + m))).octets =
      xorFrom (ctrStream N roundKeys c) (16 * m) data := by
  have hlength := (encryptBlock N roundKeys (ctrBlock (c + m))).length_eq
  exact zipWith_eq_xorFrom (by omega) fun i hi => block_getD roundKeys c (by omega)

theorem xorPairs_stream (count m : Nat) {data : Bytes} (hdata : 32 * count ≤ data.length) :
    xorPairs (keysched N roundKeys) count (ctrBlock (c + m)) data =
      (ctrBlock (c + (m + 2 * count)),
        xorFrom (ctrStream N roundKeys c) (16 * m) (data.take (32 * count))) := by
  induction count generalizing m data with
  | zero => rfl
  | succ count ih =>
    have hlength (m : Nat) := (encryptBlock N roundKeys (ctrBlock (c + m))).length_eq
    have hblock : List.zipWith (· ^^^ ·) (data.take 32)
        ((encryptBlock N roundKeys (ctrBlock (c + m))).octets ++
          (encryptBlock N roundKeys (ctrBlock (c + (m + 1)))).octets) =
        xorFrom (ctrStream N roundKeys c) (16 * m) (data.take 32) := by
      have hfirst : (data.take 16).length = 16 := by rw [List.length_take]; omega
      have hsplit : data.take (16 + 16) = data.take 16 ++ (data.drop 16).take 16 := List.take_add
      rw [show 32 = 16 + 16 from rfl, hsplit, List.zipWith_append (by rw [hfirst, hlength]),
        xorBlock_stream _ _ m hfirst.le, xorBlock_stream _ _ (m + 1) (by simp),
        xorFrom_append, hfirst, Nat.mul_succ]
    have htake : (data.take 32).length = 32 := by rw [List.length_take]; omega
    have hrest := @ih (m + 2) (data.drop 32) (by rw [List.length_drop]; omega)
    rw [xorPairs, encryptPair_eq, incrementBlock_ctrBlock, incrementBlock_ctrBlock]
    simp only [Nat.add_assoc]
    rw [hrest]
    simp only [encryptBlock] at hblock
    rw [hblock, show 32 * (count + 1) = 32 + 32 * count by omega, List.take_add, xorFrom_append,
      htake]
    simp only [Prod.mk.injEq]
    refine ⟨by congr 1; omega, by congr 2⟩

theorem xorSingles_stream (count m : Nat) {data : Bytes} (hdata : 16 * count ≤ data.length) :
    xorSingles (keysched N roundKeys) count (ctrBlock (c + m)) data =
      (ctrBlock (c + (m + count)),
        xorFrom (ctrStream N roundKeys c) (16 * m) (data.take (16 * count))) := by
  induction count generalizing m data with
  | zero => rfl
  | succ count ih =>
    have htake : (data.take 16).length = 16 := by rw [List.length_take]; omega
    have hblock := @xorBlock_stream N roundKeys c m _ htake.le
    have hrest := @ih (m + 1) (data.drop 16) (by rw [List.length_drop]; omega)
    rw [xorSingles, incrementBlock_ctrBlock]
    simp only [Nat.add_assoc]
    rw [hrest]
    simp only [encryptBlock] at hblock
    rw [hblock, show 16 * (count + 1) = 16 + 16 * count by omega, List.take_add, xorFrom_append,
      htake]
    simp only [Prod.mk.injEq]
    refine ⟨by congr 1; omega, by congr 2⟩

theorem xorKeystreamSoft_stream (m : Nat) (data : Bytes) :
    xorKeystreamSoft N roundKeys (ctrBlock (c + m)) data =
      (ctrBlock (c + (m + data.length / 16)),
        xorFrom (ctrStream N roundKeys c) (16 * m) data) := by
  have hpairs := @xorPairs_stream N roundKeys c (data.length / 32) m data (by omega)
  have hsingles := @xorSingles_stream N roundKeys c (data.length % 32 / 16)
    (m + 2 * (data.length / 32)) (data.drop (data.length / 32 * 32))
    (by rw [List.length_drop]; omega)
  have hlast := @xorBlock_stream N roundKeys c
    (m + 2 * (data.length / 32) + data.length % 32 / 16)
    ((data.drop (data.length / 32 * 32)).drop (data.length % 32 / 16 * 16))
    (by rw [List.length_drop, List.length_drop]; omega)
  simp only [encryptBlock] at hlast
  rw [xorKeystreamSoft, hpairs]
  simp only
  rw [hsingles]
  simp only
  rw [hlast, Nat.mul_comm 32, Nat.mul_comm 16 (data.length % 32 / 16)]
  refine Prod.ext (by dsimp only; congr 2; omega) ?_
  have hpos1 : 16 * m + (data.take (data.length / 32 * 32)).length =
      16 * (m + 2 * (data.length / 32)) := by rw [List.length_take]; omega
  have hpos2 : 16 * (m + 2 * (data.length / 32)) +
      ((data.drop (data.length / 32 * 32)).take (data.length % 32 / 16 * 16)).length =
      16 * (m + 2 * (data.length / 32) + data.length % 32 / 16) := by
    rw [List.length_take, List.length_drop]
    omega
  dsimp only
  rw [List.append_assoc, ← hpos2, ← xorFrom_append, List.take_append_drop, ← hpos1,
    ← xorFrom_append, List.take_append_drop]

end call

/-! ## Calls in a row -/

/-- A call that ends inside a block has only empty calls behind it. -/
def BlockAligned : List Bytes → Prop
  | [] => True
  | data :: calls => (data.length % 16 = 0 ∨ calls.flatten = []) ∧ BlockAligned calls

section calls

variable {N : Nat} {c : Nat} {cipher : AesCtr N}

theorem xorKeystream_stream (m : Nat) (hcounter : cipher.counter = ctrBlock (c + m))
    (data : Bytes) :
    cipher.xorKeystream data =
      ({ cipher with counter := ctrBlock (c + (m + data.length / 16)) },
        xorFrom (ctrStream N cipher.roundKeys c) (16 * m) data) := by
  rw [AesCtr.xorKeystream, hcounter, xorKeystreamSoft_stream]

theorem xorKeystreams_empty {calls : List Bytes} (hcalls : calls.flatten = []) (m : Nat)
    (hcounter : cipher.counter = ctrBlock (c + m)) :
    (cipher.xorKeystreams calls).2.flatten = [] := by
  induction calls generalizing cipher with
  | nil => rfl
  | cons data calls ih =>
    rw [List.flatten_cons, List.append_eq_nil_iff] at hcalls
    obtain ⟨rfl, hcalls⟩ := hcalls
    rw [AesCtr.xorKeystreams, xorKeystream_stream m hcounter]
    exact ih hcalls rfl

/-- The output of calls is as long as their input, and the first octet that comes out has
been added to the start of the block that the counter is at. -/
theorem xorKeystreams_head (calls : List Bytes) (m : Nat)
    (hcounter : cipher.counter = ctrBlock (c + m)) :
    (cipher.xorKeystreams calls).2.flatten.head? =
      calls.flatten.head?.map (· ^^^ ctrStream N cipher.roundKeys c (16 * m)) := by
  induction calls generalizing cipher with
  | nil => rfl
  | cons data calls ih =>
    rw [AesCtr.xorKeystreams, xorKeystream_stream m hcounter]
    cases data with
    | nil => exact ih rfl
    | cons octet rest => rfl

theorem xorKeystreams_aligned {calls : List Bytes} (haligned : BlockAligned calls) (m : Nat)
    (hcounter : cipher.counter = ctrBlock (c + m)) :
    (cipher.xorKeystreams calls).2.flatten =
      xorFrom (ctrStream N cipher.roundKeys c) (16 * m) calls.flatten := by
  induction calls generalizing cipher m with
  | nil => rfl
  | cons data calls ih =>
    obtain ⟨hwhole | hlast, haligned⟩ := haligned
    · have hrest := @ih { cipher with counter := ctrBlock (c + (m + data.length / 16)) } haligned
        (m + data.length / 16) rfl
      rw [AesCtr.xorKeystreams, xorKeystream_stream m hcounter]
      dsimp only at hrest ⊢
      rw [List.flatten_cons, List.flatten_cons, hrest, xorFrom_append]
      congr 2
      omega
    · have hempty := @xorKeystreams_empty N c
        { cipher with counter := ctrBlock (c + (m + data.length / 16)) } _ hlast _ rfl
      rw [AesCtr.xorKeystreams, xorKeystream_stream m hcounter]
      dsimp only
      rw [List.flatten_cons, List.flatten_cons, hempty, hlast, List.append_nil, List.append_nil]

/-- Behind a call that ends inside block `b`, the next octet is added to the start of that
block once more; on the stream it belongs to place `r` of the block. -/
theorem not_stream_of_misaligned {calls : List Bytes} (hcalls : ¬ BlockAligned calls) (m : Nat) :
    ∃ b r, 0 < r ∧ r < 16 ∧ ∀ (c : Nat) (cipher : AesCtr N),
      cipher.counter = ctrBlock (c + m) →
      (cipher.xorKeystreams calls).2.flatten =
        xorFrom (ctrStream N cipher.roundKeys c) (16 * m) calls.flatten →
      ctrStream N cipher.roundKeys c (16 * b) = ctrStream N cipher.roundKeys c (16 * b + r) := by
  induction calls generalizing m with
  | nil => exact absurd trivial hcalls
  | cons data calls ih =>
    by_cases hhere : data.length % 16 = 0 ∨ calls.flatten = []
    · obtain ⟨b, r, hr, hr', hrest⟩ := ih (fun h => hcalls ⟨hhere, h⟩) (m + data.length / 16)
      refine ⟨b, r, hr, hr', fun c cipher hcounter hstream => ?_⟩
      refine hrest c { cipher with counter := ctrBlock (c + (m + data.length / 16)) } rfl ?_
      rw [AesCtr.xorKeystreams, xorKeystream_stream m hcounter] at hstream
      dsimp only at hstream ⊢
      rw [List.flatten_cons, List.flatten_cons, xorFrom_append, List.append_cancel_left_eq]
        at hstream
      rw [hstream]
      rcases hhere with hwhole | hlast
      · congr 1
        omega
      · rw [hlast]
        rfl
    · obtain ⟨hpart, hnext⟩ := not_or.mp hhere
      refine ⟨m + data.length / 16, data.length % 16, by omega, by omega,
        fun c cipher hcounter hstream => ?_⟩
      have hhead := @xorKeystreams_head N c
        { cipher with counter := ctrBlock (c + (m + data.length / 16)) } calls _ rfl
      rw [AesCtr.xorKeystreams, xorKeystream_stream m hcounter] at hstream
      dsimp only at hstream hhead
      rw [List.flatten_cons, List.flatten_cons, xorFrom_append, List.append_cancel_left_eq]
        at hstream
      obtain ⟨octet, rest, hflatten⟩ := List.exists_cons_of_ne_nil hnext
      rw [hstream, hflatten, xorFrom, List.head?_cons, List.head?_cons, Option.map_some,
        Option.some.injEq, UInt8.xor_right_inj] at hhead
      rw [← hhead]
      congr 1
      omega

end calls

theorem CtSchedule.ext_of {sched : CtSchedule} {comp : List UInt32} {numRounds : Nat}
    (hcomp : sched.comp = comp) (hrounds : sched.numRounds = numRounds) :
    sched = ⟨comp, numRounds⟩ := by
  cases sched
  subst hcomp hrounds
  rfl

theorem zero_blocks :
    (encryptBlock 11 (expandKey 11 (.zeroed _)) (ctrBlock 0)).octets =
      [0x66, 0xe9, 0x4b, 0xd4, 0xef, 0x8a, 0x2c, 0x3b,
        0x88, 0x4c, 0xfa, 0x59, 0xca, 0x34, 0x2b, 0x2e] ∧
    (encryptBlock 15 (expandKey 15 (.zeroed _)) (ctrBlock 0)).octets =
      [0xdc, 0x95, 0xc0, 0x78, 0xa2, 0x40, 0x89, 0x89,
        0xad, 0x48, 0xa2, 0x14, 0x92, 0x84, 0x20, 0x87] := by
  -- the schedules first, so that the blocks are computed from numbers
  have hschedule11 : (keysched 11 (expandKey 11 (.zeroed _))).comp =
      [0x00000000, 0x00000000, 0x00000000, 0x00000000,
        0xffffffaa, 0x00000000, 0xaaaaaaaa, 0x55555555,
        0x99cccc77, 0xaaaaaaaa, 0x88dddddd, 0xbbeeeeee,
        0x783cc3e4, 0x88dddd88, 0x7d933939, 0x8d9c3636,
        0xe7a66a9e, 0x82c639d7, 0xb38558f2, 0x29d3a45b,
        0x348be2d3, 0x2a3ea73b, 0x707e12cf, 0xa29074ed,
        0xf1d73590, 0x5da674a7, 0xb04cfa96, 0x8a85b163,
        0xcf3bf185, 0xb921b174, 0x70e9672e, 0x82d425e0,
        0xc3a7657e, 0xd8a0da1b, 0x4fc84b5c, 0x80c40b60,
        0x6a74b419, 0x388a6df8, 0x163dbd13, 0x7f6b574a,
        0xb71bdbf8, 0xf282e3cd, 0x045926af, 0xb31dbb42] := by
    decide +kernel
  have hschedule15 : (keysched 15 (expandKey 15 (.zeroed _))).comp =
      [0x00000000, 0x00000000, 0x00000000, 0x00000000,
        0x00000000, 0x00000000, 0x00000000, 0x00000000,
        0xffffffaa, 0x00000000, 0xaaaaaaaa, 0x55555555,
        0xffffffaa, 0xaaaaaaaa, 0xffffffaa, 0xffffffaa,
        0x33cccc77, 0xffffffff, 0x88222222, 0xbb111111,
        0x669999dd, 0x22777777, 0x66cccc77, 0x996666dd,
        0xa5693c1b, 0xcc3399cc, 0x280af5f5, 0x27af0505,
        0xe12dd2c6, 0xa0e44eb1, 0xb43c3cb1, 0x871e1ec6,
        0x74b7a652, 0x960fd2c3, 0xa2a8ce31, 0xf476fefe,
        0x9fa3c56b, 0xdf9ebcda, 0x71a6f3da, 0x2bacac94,
        0x4e71de10, 0x8403c595, 0x75773c5a, 0x311bcc99,
        0xd3756b1d, 0xc68626c7, 0xb0decf92, 0x087676d1,
        0xbcb06caf, 0x2baa94d1, 0xb14ef312, 0x5a079687,
        0xc51b1dac, 0x947e0bc1, 0xda6c962f, 0x02e41bc5,
        0x73da1cdc, 0x5d222e90, 0x25bccf05, 0xb8547bd4] := by
    decide +kernel
  rw [encryptBlock, encryptBlock, CtSchedule.ext_of hschedule11 (by rfl : _ = 10),
    CtSchedule.ext_of hschedule15 (by rfl : _ = 14)]
  decide +kernel

theorem zero_block_repeats {N : Nat} (hN : N = 11 ∨ N = 15) {r : Nat} (hr : 0 < r)
    (hr' : r < 16) :
    (encryptBlock N (expandKey N (.zeroed _)) (ctrBlock 0)).octets.getD 0 0 ≠
      (encryptBlock N (expandKey N (.zeroed _)) (ctrBlock 0)).octets.getD r 0 := by
  rcases hN with rfl | rfl
  · rw [zero_blocks.1]
    interval_cases r <;> decide
  · rw [zero_blocks.2]
    interval_cases r <;> decide

theorem exists_counter_before (b : Nat) :
    ∃ counter : FixedBytes 16, ctrBlock (beValue counter.octets + b) = ctrBlock 0 := by
  refine ⟨ctrBlock (256 ^ 16 - b % 256 ^ 16), ctrBlock_mod ?_⟩
  rw [beValue_ctrBlock]
  omega

/-- The outputs of calls, laid end to end, are their inputs added to the stream of the key
from the counter on, for every key and every counter. -/
def AesCtr.Streams (N : Nat) (calls : List Bytes) : Prop :=
  ∀ (key : FixedBytes (keySize N)) (counter : FixedBytes 16),
    (((AesCtr.newInner key).setCounter counter).xorKeystreams calls).2.flatten =
      xorFrom (ctrStream N (expandKey N key) (beValue counter.octets)) 0 calls.flatten

/--
Calls of one cipher stream if and only if every call that ends inside a block has only
empty calls behind it.  Then the output depends on the concatenation alone, and no octet
of a block is used at two places below 2¹³² octets.
-/
theorem aesCtr_streams_iff {N : Nat} (hN : N = 11 ∨ N = 15) (calls : List Bytes) :
    (AesCtr.Streams N calls ↔ BlockAligned calls) ∧
      ∀ counter i j, i < 16 * 256 ^ 16 → j < 16 * 256 ^ 16 →
        ctrBlock (counter + i / 16) = ctrBlock (counter + j / 16) → i % 16 = j % 16 → i = j := by
  refine ⟨⟨fun hstreams => ?_, fun haligned key counter => ?_⟩, ?_⟩
  · by_contra hcalls
    obtain ⟨b, r, hr, hr', hrepeat⟩ := @not_stream_of_misaligned N calls hcalls 0
    obtain ⟨counter, hzero⟩ := exists_counter_before b
    have hsame : ctrStream N (expandKey N (.zeroed _)) (beValue counter.octets) (16 * b) =
        ctrStream N (expandKey N (.zeroed _)) (beValue counter.octets) (16 * b + r) :=
      hrepeat (beValue counter.octets) ((AesCtr.newInner (.zeroed _)).setCounter counter)
        (ctrBlock_beValue counter) (hstreams (.zeroed _) counter)
    rw [← block_getD _ _ hr', ← Nat.add_zero (16 * b), ← block_getD _ _ (by omega), hzero] at hsame
    exact zero_block_repeats hN hr hr' hsame
  · exact xorKeystreams_aligned haligned 0 (ctrBlock_beValue counter)
  · intro counter i j hi hj hblock hplace
    have hvalue := congrArg (fun block => beValue (FixedBytes.octets block)) hblock
    simp only [beValue_ctrBlock] at hvalue
    omega

theorem aesCtr_streams_whole : AesCtr.Streams 11 [List.replicate 16 7, [], [1, 2, 3], []] :=
  (aesCtr_streams_iff (.inl rfl) _).1.mpr
    ⟨.inl rfl, .inl rfl, .inr rfl, .inl rfl, trivial⟩

theorem aesCtr_not_streams :
    (((AesCtr.newInner (N := 11) (.zeroed _)).setCounter (.zeroed 16)).xorKeystreams
        [[0], [0]]).2.flatten ≠
      xorFrom (ctrStream 11 (expandKey 11 (.zeroed _)) 0) 0 [[0], [0]].flatten := by
  have hcounter : ((AesCtr.newInner (N := 11) (.zeroed _)).setCounter (.zeroed 16)).counter =
      ctrBlock (0 + 0) := by decide
  rw [AesCtr.xorKeystreams, xorKeystream_stream 0 hcounter]
  dsimp only
  rw [AesCtr.xorKeystreams, xorKeystream_stream (c := 0) 0 rfl]
  intro h
  -- Both calls read octet 0 of the block, the stream goes on to octet 1.
  have hsecond := congrArg (fun out => List.getD out 1 0) h
  simp only [List.length_singleton, AesCtr.xorKeystreams, xorFrom, List.flatten_cons,
    List.flatten_nil, List.append_nil, List.singleton_append, List.getD_cons_succ,
    List.getD_cons_zero, UInt8.xor_right_inj] at hsecond
  exact zero_block_repeats (.inl rfl) one_pos (by decide) hsecond

end Stdx.Cipher.Aes
