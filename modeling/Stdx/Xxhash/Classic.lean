import Mathlib
import Stdx.Foundation.BlockFold
import Stdx.Foundation.LittleEndian

/-!
# XXH32 and XXH64

The two classic hashers are one algorithm over words of 32 and of 64 bits.  The
streaming state folds every whole stripe and keeps the octets behind them; the `const`
functions run over the whole input.  `none` is a read or a write out of range.
-/

namespace Stdx.Xxhash

open Stdx.Foundation

def readWord (w : Nat) (data : Bytes) (offset : Nat) : Option (BitVec w) :=
  if offset + w / 8 ≤ data.length then
    some (BitVec.ofNat w (leValue ((data.drop offset).take (w / 8))))
  else none

theorem readWord_isSome {w : Nat} {data : Bytes} {offset : Nat}
    (h : offset + w / 8 ≤ data.length) : (readWord w data offset).isSome := by
  rw [readWord, if_pos h]
  rfl

/-- `v: [u32; 4]` or `v: [u64; 4]` -/
@[ext]
structure Lanes (w : Nat) where
  v0 : BitVec w
  v1 : BitVec w
  v2 : BitVec w
  v3 : BitVec w

/-- What the two hashers differ in. -/
structure Variant where
  w : Nat
  stripe : Nat
  stripe_eq : stripe = 4 * (w / 8)
  stripe_pos : 0 < stripe
  init : BitVec w → Lanes w
  round : BitVec w → BitVec w → BitVec w
  converge : Lanes w → BitVec w
  short : BitVec w → BitVec w
  tail : BitVec w → Bytes → BitVec w
  avalanche : BitVec w → BitVec w

/-! ## XXH32 -/

namespace Xxh32

def PRIME32_1 : BitVec 32 := 0x9E3779B1
def PRIME32_2 : BitVec 32 := 0x85EBCA77
def PRIME32_3 : BitVec 32 := 0xC2B2AE3D
def PRIME32_4 : BitVec 32 := 0x27D4EB2F
def PRIME32_5 : BitVec 32 := 0x165667B1

def initStripes (seed : BitVec 32) : Lanes 32 :=
  ⟨seed + PRIME32_1 + PRIME32_2, seed + PRIME32_2, seed, seed - PRIME32_1⟩

def round (v lane : BitVec 32) : BitVec 32 :=
  (v + lane * PRIME32_2).rotateLeft 13 * PRIME32_1

def converge (v : Lanes 32) : BitVec 32 :=
  v.v0.rotateLeft 1 + v.v1.rotateLeft 7 + v.v2.rotateLeft 12 + v.v3.rotateLeft 18

def process4bytes (acc : BitVec 32) (data : Bytes) : BitVec 32 :=
  (acc + BitVec.ofNat 32 (leValue data) * PRIME32_3).rotateLeft 17 * PRIME32_4

def process1byte (acc : BitVec 32) (byte : UInt8) : BitVec 32 :=
  (acc + byte.toBitVec.setWidth 32 * PRIME32_5).rotateLeft 11 * PRIME32_1

def tail (acc : BitVec 32) : Bytes → BitVec 32
  | a :: b :: c :: d :: rest => tail (process4bytes acc [a, b, c, d]) rest
  | rest => rest.foldl process1byte acc

def avalanche (h : BitVec 32) : BitVec 32 :=
  let h := (h ^^^ (h >>> 15)) * PRIME32_2
  let h := (h ^^^ (h >>> 13)) * PRIME32_3
  h ^^^ (h >>> 16)

def variant : Variant where
  w := 32
  stripe := 16
  stripe_eq := rfl
  stripe_pos := by decide
  init := initStripes
  round := round
  converge := converge
  short := fun seed => seed + PRIME32_5
  tail := tail
  avalanche := avalanche

end Xxh32

/-! ## XXH64 -/

namespace Xxh64

def PRIME64_1 : BitVec 64 := 0x9E3779B185EBCA87
def PRIME64_2 : BitVec 64 := 0xC2B2AE3D27D4EB4F
def PRIME64_3 : BitVec 64 := 0x165667B19E3779F9
def PRIME64_4 : BitVec 64 := 0x85EBCA77C2B2AE63
def PRIME64_5 : BitVec 64 := 0x27D4EB2F165667C5

def initStripes (seed : BitVec 64) : Lanes 64 :=
  ⟨seed + PRIME64_1 + PRIME64_2, seed + PRIME64_2, seed, seed - PRIME64_1⟩

def round (v lane : BitVec 64) : BitVec 64 :=
  (v + lane * PRIME64_2).rotateLeft 31 * PRIME64_1

def mergeRound (acc val : BitVec 64) : BitVec 64 :=
  (acc ^^^ (val * PRIME64_2).rotateLeft 31 * PRIME64_1) * PRIME64_1 + PRIME64_4

def converge (v : Lanes 64) : BitVec 64 :=
  let h := v.v0.rotateLeft 1 + v.v1.rotateLeft 7 + v.v2.rotateLeft 12 + v.v3.rotateLeft 18
  mergeRound (mergeRound (mergeRound (mergeRound h v.v0) v.v1) v.v2) v.v3

def process8bytes (acc : BitVec 64) (data : Bytes) : BitVec 64 :=
  let k1 := (BitVec.ofNat 64 (leValue data) * PRIME64_2).rotateLeft 31 * PRIME64_1
  (acc ^^^ k1).rotateLeft 27 * PRIME64_1 + PRIME64_4

def process4bytes (acc : BitVec 64) (data : Bytes) : BitVec 64 :=
  (acc ^^^ BitVec.ofNat 64 (leValue data) * PRIME64_1).rotateLeft 23 * PRIME64_2 + PRIME64_3

def process1byte (acc : BitVec 64) (byte : UInt8) : BitVec 64 :=
  (acc ^^^ byte.toBitVec.setWidth 64 * PRIME64_5).rotateLeft 11 * PRIME64_1

def shortTail (acc : BitVec 64) : Bytes → BitVec 64
  | a :: b :: c :: d :: rest => rest.foldl process1byte (process4bytes acc [a, b, c, d])
  | rest => rest.foldl process1byte acc

def tail (acc : BitVec 64) : Bytes → BitVec 64
  | a :: b :: c :: d :: e :: f :: g :: h :: rest =>
    tail (process8bytes acc [a, b, c, d, e, f, g, h]) rest
  | rest => shortTail acc rest

def avalanche (h : BitVec 64) : BitVec 64 :=
  let h := (h ^^^ (h >>> 33)) * PRIME64_2
  let h := (h ^^^ (h >>> 29)) * PRIME64_3
  h ^^^ (h >>> 32)

def variant : Variant where
  w := 64
  stripe := 32
  stripe_eq := by decide
  stripe_pos := Nat.mul_pos (Nat.succ_pos 3) (Nat.succ_pos 7)
  init := initStripes
  round := round
  converge := converge
  short := fun seed => seed + PRIME64_5
  tail := tail
  avalanche := avalanche

end Xxh64

/-! ## The algorithm -/

/-- `total_len += data.len() as u64`, for a total that a `u64` holds. -/
def addLength (totalLen : BitVec 64) (length : Nat) : Option (BitVec 64) :=
  if totalLen.toNat + length < 2 ^ 64 then some (totalLen + BitVec.ofNat 64 length) else none

section Algorithm

variable (V : Variant)

def processStripe (v : Lanes V.w) (stripe : Bytes) : Option (Lanes V.w) := do
  let lane0 ← readWord V.w stripe 0
  let lane1 ← readWord V.w stripe (V.w / 8)
  let lane2 ← readWord V.w stripe (2 * (V.w / 8))
  let lane3 ← readWord V.w stripe (3 * (V.w / 8))
  some ⟨V.round v.v0 lane0, V.round v.v1 lane1, V.round v.v2 lane2, V.round v.v3 lane3⟩

def processStripes (count : Nat) (v : Option (Lanes V.w)) (data : Bytes) :
    Option (Lanes V.w) :=
  foldBlocks V.stripe (fun _ v stripe => v.bind fun v => processStripe V v stripe) count v data

/-- The `const fn`, for any seed. -/
def oneShot (seed : BitVec V.w) (data : Bytes) : Option (BitVec V.w) := do
  let h ←
    if V.stripe ≤ data.length then
      (processStripes V (data.length / V.stripe) (some (V.init seed)) data).map V.converge
    else some (V.short seed)
  let h := h + (BitVec.ofNat 64 data.length).setWidth V.w
  some (V.avalanche (V.tail h (data.drop (data.length / V.stripe * V.stripe))))

structure Hasher where
  seed : BitVec V.w
  v : Lanes V.w
  totalLen : BitVec 64
  hasStripes : Bool
  buf : FixedBytes V.stripe
  bufLen : Nat

namespace Hasher

def withSeed (seed : BitVec V.w) : Hasher V where
  seed := seed
  v := ⟨0, 0, 0, 0⟩
  totalLen := 0
  hasStripes := false
  buf := FixedBytes.zeroed V.stripe
  bufLen := 0

variable {V}

def initStripes (s : Hasher V) : Hasher V :=
  { s with v := V.init s.seed, hasStripes := true }

/-- `if !self.has_stripes { self.init_stripes() }` -/
def started (s : Hasher V) : Hasher V :=
  if s.hasStripes then s else s.initStripes

def take (s : Hasher V) (data : Bytes) : Nat := min (V.stripe - s.bufLen) data.length

def fill (s : Hasher V) (data : Bytes) : Option (Hasher V × Bytes) :=
  if s.bufLen > 0 then do
    let buf ← s.buf.copyInto s.bufLen (data.take (s.take data))
    if s.bufLen + s.take data = V.stripe then
      let v ← processStripe V s.started.v buf.octets
      some ({ s.started with v := v, buf := buf, bufLen := 0 }, data.drop (s.take data))
    else some ({ s with buf := buf, bufLen := s.bufLen + s.take data }, data.drop (s.take data))
  else some (s, data)

def absorb (s : Hasher V) (data : Bytes) : Option (Hasher V × Bytes) :=
  if s.hasStripes ∨ V.stripe ≤ data.length then do
    let count := data.length / V.stripe
    let v ← processStripes V count (some s.started.v) data
    some ({ s.started with v := v }, data.drop (count * V.stripe))
  else some (s, data)

/-- The third part: what is left goes to the buffer. -/
def keep (s : Hasher V) (data : Bytes) : Option (Hasher V) :=
  if data = [] then some s
  else do
    let buf ← s.buf.copyInto 0 data
    some { s with buf := buf, bufLen := data.length }

def update (s : Hasher V) (data : Bytes) : Option (Hasher V) := do
  let totalLen ← addLength s.totalLen data.length
  let (s, data) ← fill { s with totalLen := totalLen } data
  let (s, data) ← s.absorb data
  s.keep data

def updates (s : Hasher V) : List Bytes → Option (Hasher V)
  | [] => some s
  | data :: rest => do
      let s ← s.update data
      s.updates rest

def sum (s : Hasher V) : Option (BitVec V.w) := do
  let h := if V.stripe ≤ s.totalLen.toNat then V.converge s.v else V.short s.seed
  let h := h + s.totalLen.setWidth V.w
  let buf ← s.buf.upTo s.bufLen
  some (V.avalanche (V.tail h buf))

end Hasher

end Algorithm

/-! ## The `const` functions and `checksum` -/

def xxh32 (data : Bytes) : Option (BitVec 32) := oneShot Xxh32.variant 0 data

def xxh64 (data : Bytes) : Option (BitVec 64) := oneShot Xxh64.variant 0 data

/-- `Checksum::checksum`, as the trait provides it. -/
def checksum (V : Variant) (data : Bytes) : Option (BitVec V.w) := do
  let s ← (Hasher.withSeed V 0).update data
  s.sum

/-! ## Stripes -/

section

variable (V : Variant)

theorem processStripe_isSome (v : Lanes V.w) {stripe : Bytes} (h : stripe.length = V.stripe) :
    (processStripe V v stripe).isSome := by
  have hsize := V.stripe_eq
  obtain ⟨lane0, h0⟩ := Option.isSome_iff_exists.mp
    (@readWord_isSome V.w stripe 0 (by omega))
  obtain ⟨lane1, h1⟩ := Option.isSome_iff_exists.mp
    (@readWord_isSome V.w stripe (V.w / 8) (by omega))
  obtain ⟨lane2, h2⟩ := Option.isSome_iff_exists.mp
    (@readWord_isSome V.w stripe (2 * (V.w / 8)) (by omega))
  obtain ⟨lane3, h3⟩ := Option.isSome_iff_exists.mp
    (@readWord_isSome V.w stripe (3 * (V.w / 8)) (by omega))
  simp [processStripe, h0, h1, h2, h3]

theorem processStripes_isSome (count : Nat) (v : Lanes V.w) {data : Bytes}
    (h : V.stripe * count ≤ data.length) : (processStripes V count (some v) data).isSome := by
  induction count with
  | zero => rfl
  | succ count ih =>
    have hprev : V.stripe * count ≤ data.length := by
      rw [Nat.mul_succ] at h
      omega
    obtain ⟨v', hv'⟩ := Option.isSome_iff_exists.mp (ih hprev)
    unfold processStripes at hv' ⊢
    rw [foldBlocks_succ, hv']
    exact processStripe_isSome V v' (blockAt_length h)

theorem processStripes_append (a b : Nat) (v : Option (Lanes V.w)) {front : Bytes}
    (back : Bytes) (h : front.length = V.stripe * a) :
    processStripes V (a + b) v (front ++ back) =
      processStripes V b (processStripes V a v front) back :=
  foldBlocks_append_right back h _ b v

theorem processStripes_one (v : Lanes V.w) {data : Bytes} (h : data.length = V.stripe) :
    processStripes V 1 (some v) data = processStripe V v data := by
  unfold processStripes
  rw [foldBlocks_one, List.take_of_length_le (Nat.le_of_eq h)]
  rfl

end

/-! ## The streaming state -/

namespace Hasher

variable {V : Variant} {seed : BitVec V.w} {s : Hasher V} {whole tail data : Bytes}

/-- The state has folded `whole` and holds `tail` in its buffer. -/
structure Holds (seed : BitVec V.w) (s : Hasher V) (whole tail : Bytes) : Prop where
  seed_eq : s.seed = seed
  dvd : V.stripe ∣ whole.length
  short : tail.length < V.stripe
  bufLen : s.bufLen = tail.length
  buf : s.buf.octets.take tail.length = tail
  hasStripes : s.hasStripes = true ↔ whole ≠ []
  folded : processStripes V (whole.length / V.stripe) (some (V.init seed)) whole =
    some s.started.v

theorem holds_withSeed (seed : BitVec V.w) : Holds seed (withSeed V seed) [] [] where
  seed_eq := rfl
  dvd := Nat.dvd_zero _
  short := V.stripe_pos
  bufLen := rfl
  buf := rfl
  hasStripes := by simp [withSeed]
  folded := by
    rw [List.length_nil, Nat.zero_div]
    rfl

theorem started_fields (s : Hasher V) :
    s.started.seed = s.seed ∧ s.started.buf = s.buf ∧ s.started.bufLen = s.bufLen ∧
      s.started.totalLen = s.totalLen ∧ s.started.hasStripes = true := by
  unfold started
  split
  · next h => exact ⟨rfl, rfl, rfl, rfl, h⟩
  · exact ⟨rfl, rfl, rfl, rfl, rfl⟩

theorem started_of_hasStripes (h : s.hasStripes = true) : s.started = s := if_pos h

theorem started_v_congr {s s' : Hasher V} (hseed : s'.seed = s.seed) (hv : s'.v = s.v)
    (hhas : s'.hasStripes = s.hasStripes) : s'.started.v = s.started.v := by
  unfold started initStripes
  rw [hseed, hhas]
  split
  · exact hv
  · rfl

theorem Holds.folded_append (h : Holds seed s whole tail) {stripes : Bytes} {count : Nat}
    (hstripes : stripes.length = V.stripe * count) :
    processStripes V ((whole ++ stripes).length / V.stripe) (some (V.init seed))
        (whole ++ stripes) = processStripes V count (some s.started.v) stripes := by
  obtain ⟨a, ha⟩ := h.dvd
  have hpos := V.stripe_pos
  have hfolded := h.folded
  rw [ha, Nat.mul_div_cancel_left _ hpos] at hfolded
  rw [List.length_append, hstripes, ha, ← Nat.mul_add, Nat.mul_div_cancel_left _ hpos,
    processStripes_append V a count _ stripes ha, hfolded]

theorem fill_spec (h : Holds seed s whole tail) (data : Bytes) :
    ∃ s' rest whole' tail', s.fill data = some (s', rest) ∧ Holds seed s' whole' tail' ∧
      s'.totalLen = s.totalLen ∧ whole' ++ tail' ++ rest = whole ++ tail ++ data ∧
      (tail' = [] ∨ rest = []) := by
  have hpos := V.stripe_pos
  have hshort := h.short
  unfold fill
  by_cases htail : tail = []
  · subst htail
    have hbufLen : ¬s.bufLen > 0 := by simp [h.bufLen]
    exact ⟨s, data, whole, [], if_neg hbufLen, h, rfl, rfl, .inl rfl⟩
  have hbufLen : s.bufLen > 0 := by
    rw [h.bufLen]
    exact List.length_pos_of_ne_nil htail
  rw [if_pos hbufLen]
  by_cases hfull : tail.length + data.length < V.stripe
  · -- everything fits behind the tail
    have htake : s.take data = data.length := by
      rw [take, h.bufLen]
      omega
    rw [htake, List.take_length, List.drop_length, h.bufLen]
    obtain ⟨buf, hcopy, hbuf⟩ := s.buf.copyInto_take (Nat.le_of_lt hfull)
    rw [h.buf] at hbuf
    refine ⟨{ s with buf := buf, bufLen := tail.length + data.length }, [], whole, tail ++ data,
      ?_, ?_, rfl, by simp, .inr rfl⟩
    · simp only [hcopy, Option.bind_eq_bind, Option.bind_some]
      rw [if_neg (Nat.ne_of_lt hfull)]
    · exact ⟨h.seed_eq, h.dvd, by simpa using hfull, by simp, by simpa using hbuf,
        h.hasStripes, h.folded.trans (congrArg some (started_v_congr rfl rfl rfl))⟩
  · -- the tail is completed to a stripe
    have htake : s.take data = V.stripe - tail.length := by
      rw [take, h.bufLen]
      omega
    have hlength : (data.take (V.stripe - tail.length)).length = V.stripe - tail.length := by
      rw [List.length_take]
      omega
    have hroom : tail.length + (data.take (V.stripe - tail.length)).length ≤ V.stripe := by omega
    obtain ⟨buf, hcopy, hbuf⟩ := s.buf.copyInto_take hroom
    rw [h.buf, hlength, Nat.add_sub_of_le (Nat.le_of_lt hshort),
      List.take_of_length_le (Nat.le_of_eq buf.length_eq)] at hbuf
    obtain ⟨v, hv⟩ := Option.isSome_iff_exists.mp
      (processStripe_isSome V s.started.v buf.length_eq)
    have hstripe : (tail ++ data.take (V.stripe - tail.length)).length = V.stripe * 1 := by
      rw [← hbuf, buf.length_eq, Nat.mul_one]
    obtain ⟨hseed, -, -, htotal, hhas⟩ := s.started_fields
    rw [htake, h.bufLen]
    refine ⟨{ s.started with v := v, buf := buf, bufLen := 0 },
      data.drop (V.stripe - tail.length),
      whole ++ (tail ++ data.take (V.stripe - tail.length)), [], ?_, ?_, htotal, ?_, .inl rfl⟩
    · simp only [hcopy, Option.bind_eq_bind, Option.bind_some]
      rw [if_pos (Nat.add_sub_of_le (Nat.le_of_lt hshort)), hv]
      rfl
    · refine ⟨hseed.trans h.seed_eq, ?_, hpos, rfl, rfl, ?_, ?_⟩
      · rw [List.length_append, hstripe, Nat.mul_one]
        exact Nat.dvd_add h.dvd (Nat.dvd_refl _)
      · refine iff_of_true hhas ?_
        intro hnil
        rw [List.append_eq_nil_iff, List.append_eq_nil_iff] at hnil
        exact htail hnil.2.1
      · have hafter : ({ s.started with v := v, buf := buf, bufLen := 0 } : Hasher V).started.v =
            v := by rw [started_of_hasStripes (by exact hhas)]
        rw [h.folded_append hstripe, processStripes_one V _ (by rw [hstripe, Nat.mul_one]),
          ← hbuf, hv, hafter]
    · simp

theorem absorb_spec (h : Holds seed s whole tail) (hdata : tail = [] ∨ data = []) :
    ∃ s' rest whole', s.absorb data = some (s', rest) ∧ Holds seed s' whole' tail ∧
      s'.totalLen = s.totalLen ∧ whole' ++ tail ++ rest = whole ++ tail ++ data ∧
      rest.length < V.stripe ∧ (tail = [] ∨ rest = []) := by
  have hpos := V.stripe_pos
  unfold absorb
  by_cases hstripes : s.hasStripes ∨ V.stripe ≤ data.length
  · rw [if_pos hstripes]
    have hcount : V.stripe * (data.length / V.stripe) ≤ data.length := Nat.mul_div_le _ _
    have hmod := Nat.div_add_mod data.length V.stripe
    have hlt := Nat.mod_lt data.length hpos
    obtain ⟨v, hv⟩ := Option.isSome_iff_exists.mp
      (processStripes_isSome V (data.length / V.stripe) s.started.v hcount)
    obtain ⟨hseed, hbuf, hbufLen, htotal, hhas⟩ := s.started_fields
    rw [Nat.mul_comm] at hcount
    have hlength : (data.take (data.length / V.stripe * V.stripe)).length =
        V.stripe * (data.length / V.stripe) := by
      rw [List.length_take, Nat.min_eq_left hcount, Nat.mul_comm]
    have hfold : processStripes V (data.length / V.stripe) (some s.started.v)
        (data.take (data.length / V.stripe * V.stripe)) = some v := by
      have hsplit : processStripes V (data.length / V.stripe) (some s.started.v)
          (data.take (data.length / V.stripe * V.stripe) ++
            data.drop (data.length / V.stripe * V.stripe)) =
          processStripes V (data.length / V.stripe) (some s.started.v)
            (data.take (data.length / V.stripe * V.stripe)) :=
        foldBlocks_append_left _ (Nat.le_of_eq hlength.symm) _ _
      rw [← hsplit, List.take_append_drop, hv]
    refine ⟨{ s.started with v := v }, data.drop (data.length / V.stripe * V.stripe),
      whole ++ data.take (data.length / V.stripe * V.stripe), ?_, ?_, htotal, ?_, ?_, ?_⟩
    · simp only [hv, Option.bind_eq_bind, Option.bind_some]
    · refine ⟨hseed.trans h.seed_eq, ?_, h.short, hbufLen.trans h.bufLen, ?_, ?_, ?_⟩
      · rw [List.length_append, hlength]
        exact Nat.dvd_add h.dvd (Nat.dvd_mul_right _ _)
      · rw [show ({ s.started with v := v } : Hasher V).buf = s.buf from hbuf]
        exact h.buf
      · refine iff_of_true hhas ?_
        intro hnil
        obtain ⟨hwhole, htake⟩ := List.append_eq_nil_iff.mp hnil
        have hzero := congrArg List.length htake
        rw [hlength, List.length_nil] at hzero
        obtain hhas | hle := hstripes
        · exact h.hasStripes.mp hhas hwhole
        · rw [hzero] at hmod
          omega
      · have hafter : ({ s.started with v := v } : Hasher V).started.v = v := by
          rw [started_of_hasStripes (by exact hhas)]
        rw [h.folded_append hlength, hfold, hafter]
    · obtain rfl | rfl := hdata
      · simp
      · simp
    · rw [List.length_drop, Nat.mul_comm]
      omega
    · obtain htail | rfl := hdata
      · exact .inl htail
      · exact .inr (by simp)
  · rw [if_neg hstripes]
    exact ⟨s, data, whole, rfl, h, rfl, rfl, by omega, hdata⟩

theorem keep_spec (h : Holds seed s whole tail) (hlength : data.length < V.stripe)
    (hdata : tail = [] ∨ data = []) :
    ∃ s', s.keep data = some s' ∧ Holds seed s' whole (tail ++ data) ∧
      s'.totalLen = s.totalLen := by
  unfold keep
  by_cases hnil : data = []
  · exact ⟨s, if_pos hnil, by rw [hnil, List.append_nil]; exact h, rfl⟩
  · have htail : tail = [] := hdata.resolve_right hnil
    obtain ⟨buf, hcopy, hbuf⟩ := @FixedBytes.copyInto_take V.stripe s.buf 0 data (by omega)
    rw [Nat.zero_add] at hbuf
    refine ⟨{ s with buf := buf, bufLen := data.length }, ?_, ?_, rfl⟩
    · rw [if_neg hnil, hcopy]
      rfl
    · subst htail
      exact ⟨h.seed_eq, h.dvd, hlength, rfl, by simpa using hbuf, h.hasStripes,
        h.folded.trans (congrArg some (started_v_congr rfl rfl rfl))⟩

/-- The state after the octets of `message`. -/
structure Fed (seed : BitVec V.w) (s : Hasher V) (message : Bytes) : Prop where
  holds : ∃ whole tail, message = whole ++ tail ∧ Holds seed s whole tail
  totalLen : s.totalLen.toNat = message.length

theorem Fed.update {message : Bytes} (h : Fed seed s message)
    (hlength : (message ++ data).length < 2 ^ 64) :
    ∃ s', s.update data = some s' ∧ Fed seed s' (message ++ data) := by
  obtain ⟨⟨whole, tail, rfl, hholds⟩, htotal⟩ := h
  rw [List.length_append] at hlength
  have hadd : addLength s.totalLen data.length =
      some (s.totalLen + BitVec.ofNat 64 data.length) := by
    rw [addLength, if_pos (by omega)]
  have hcounted : Holds seed { s with totalLen := s.totalLen + BitVec.ofNat 64 data.length }
      whole tail :=
    ⟨hholds.seed_eq, hholds.dvd, hholds.short, hholds.bufLen, hholds.buf, hholds.hasStripes,
      hholds.folded.trans (congrArg some (started_v_congr rfl rfl rfl))⟩
  obtain ⟨s1, rest1, whole1, tail1, hfill, h1, htotal1, heq1, hempty1⟩ := fill_spec hcounted data
  obtain ⟨s2, rest2, whole2, habsorb, h2, htotal2, heq2, hshort2, hempty2⟩ :=
    absorb_spec h1 hempty1
  obtain ⟨s3, hkeep, h3, htotal3⟩ := keep_spec h2 hshort2 hempty2
  refine ⟨s3, ?_, ⟨whole2, tail1 ++ rest2, ?_, h3⟩, ?_⟩
  · simp only [Hasher.update, hadd, hfill, habsorb, hkeep, Option.bind_eq_bind, Option.bind_some]
  · rw [← List.append_assoc, heq2, heq1]
  · rw [htotal3, htotal2, htotal1, BitVec.toNat_add, BitVec.toNat_ofNat, List.length_append]
    omega

theorem Fed.updates {message : Bytes} {parts : List Bytes} (h : Fed seed s message)
    (hlength : (message ++ parts.flatten).length < 2 ^ 64) :
    ∃ s', s.updates parts = some s' ∧ Fed seed s' (message ++ parts.flatten) := by
  induction parts generalizing s message with
  | nil => exact ⟨s, rfl, by simpa using h⟩
  | cons data parts ih =>
    rw [List.flatten_cons, ← List.append_assoc] at hlength ⊢
    obtain ⟨s', hupdate, h'⟩ := @Fed.update _ _ _ data _ h (by
      rw [List.length_append] at hlength
      omega)
    obtain ⟨s'', hupdates, h''⟩ := ih h' hlength
    refine ⟨s'', ?_, h''⟩
    rw [Hasher.updates, hupdate]
    exact hupdates

theorem Fed.sum {message : Bytes} (h : Fed seed s message) :
    s.sum = oneShot V seed message ∧ s.sum.isSome := by
  obtain ⟨⟨whole, tail, rfl, hholds⟩, htotal⟩ := h
  have hpos := V.stripe_pos
  have hshort := hholds.short
  obtain ⟨a, ha⟩ := hholds.dvd
  have hcount : (whole ++ tail).length / V.stripe = a := by
    rw [List.length_append, ha, Nat.mul_add_div hpos, Nat.div_eq_of_lt hshort, Nat.add_zero]
  have hdrop : (whole ++ tail).drop (a * V.stripe) = tail := by
    rw [Nat.mul_comm, ← ha, List.drop_left]
  have hfolded := hholds.folded
  rw [ha, Nat.mul_div_cancel_left _ hpos] at hfolded
  have hbuf : s.buf.upTo s.bufLen = some tail := by
    rw [hholds.bufLen, s.buf.upTo_eq (Nat.le_of_lt hshort), hholds.buf]
  have hlen : BitVec.ofNat 64 (whole ++ tail).length = s.totalLen := by
    rw [← htotal, BitVec.ofNat_toNat, BitVec.setWidth_eq]
  unfold Hasher.sum oneShot
  rw [hcount, hdrop, hbuf, hlen, htotal]
  by_cases hlong : V.stripe ≤ (whole ++ tail).length
  · have hne : whole ≠ [] := by
      rintro rfl
      rw [List.nil_append] at hlong
      omega
    rw [started_of_hasStripes (hholds.hasStripes.mpr hne)] at hfolded
    have hstripes : processStripes V a (some (V.init seed)) (whole ++ tail) = some s.v := by
      rw [← hfolded]
      exact foldBlocks_append_left _ (Nat.le_of_eq ha.symm) _ _
    rw [if_pos hlong, if_pos hlong, hstripes]
    exact ⟨rfl, rfl⟩
  · rw [if_neg hlong, if_neg hlong, hholds.seed_eq]
    exact ⟨rfl, rfl⟩

def streamed (V : Variant) (seed : BitVec V.w) (parts : List Bytes) : Option (BitVec V.w) :=
  ((withSeed V seed).updates parts).bind fun s => s.sum

theorem streamed_eq (V : Variant) (seed : BitVec V.w) {parts : List Bytes}
    (hlength : parts.flatten.length < 2 ^ 64) :
    streamed V seed parts = oneShot V seed parts.flatten ∧ (streamed V seed parts).isSome := by
  have hstart : Fed seed (withSeed V seed) [] := ⟨⟨[], [], rfl, holds_withSeed seed⟩, rfl⟩
  obtain ⟨s, hupdates, hfed⟩ := @Fed.updates _ _ _ _ parts hstart (by simpa using hlength)
  rw [List.nil_append] at hfed
  rw [streamed, hupdates]
  exact hfed.sum

/-- However the input is cut, streaming gives the value of the whole input. -/
theorem streaming (V : Variant) (seed : BitVec V.w) (parts : List Bytes)
    (hlength : parts.flatten.length < 2 ^ 64) :
    (((withSeed V seed).updates parts).bind fun s => s.sum) = oneShot V seed parts.flatten ∧
      (oneShot V seed parts.flatten).isSome := by
  obtain ⟨hsum, hsome⟩ := streamed_eq V seed hlength
  exact ⟨hsum, hsum ▸ hsome⟩

theorem streaming_xxh32 :
    (((withSeed Xxh32.variant 7).updates [[1], List.replicate 20 2]).bind fun s => s.sum) =
        oneShot Xxh32.variant 7 (1 :: List.replicate 20 2) ∧
      (oneShot Xxh32.variant 7 (1 :: List.replicate 20 2)).isSome :=
  streaming Xxh32.variant 7 [[1], List.replicate 20 2] (by decide)

end Hasher

end Stdx.Xxhash
