import Stdx.Ascon.Cores
import Stdx.Foundation.BlockFold
import Stdx.Cipher.AesGcm

/-!
# AEAD, hash and XOF over either core

`ascon_aead128.rs`, `ascon_hash256.rs`, `ascon_xof128.rs` and `ascon_cxof128.rs` use a core
through its operations only.  They are written here over any core, and two cores with a
map that carries the operations of one to those of the other compute the same octets.
-/

namespace Stdx.Ascon

open Stdx.Foundation Stdx.Cipher

/-! ## A core -/

structure Core (σ : Type) where
  initAead : FixedBytes 16 → FixedBytes 16 → BitVec 64 → σ
  initHash : BitVec 64 → σ
  xorWord : σ → Nat → BitVec 64 → Option σ
  xorRate128Bytes : σ → FixedBytes 16 → σ
  xorPartialRate : σ → Bytes → Option σ
  encryptInPlaceBlock : σ → FixedBytes 16 → σ × FixedBytes 16
  decryptInPlaceBlock : σ → FixedBytes 16 → σ × FixedBytes 16
  squeezeRateU64 : σ → BitVec 64
  readRateBytes : σ → Nat → Option Bytes
  writeRateBytes : σ → Bytes → Option σ
  applyDomainSep : σ → σ
  applyAeadPad : σ → Nat → Option σ
  tagBytes : σ → FixedBytes 16
  squeezeByte : σ → Bytes
  absorbBlock : σ → Bytes → Option σ
  round : σ → BitVec 8 → σ
  p8 : σ → σ
  p12 : σ → σ

def core64b (checks : Bool) : Core Ascon64b.State where
  initAead := Ascon64b.initAead
  initHash := Ascon64b.initHash
  xorWord := Ascon64b.xorWord
  xorRate128Bytes := Ascon64b.xorRate128Bytes
  xorPartialRate := Ascon64b.xorPartialRate checks
  encryptInPlaceBlock := Ascon64b.encryptInPlaceBlock
  decryptInPlaceBlock := Ascon64b.decryptInPlaceBlock
  squeezeRateU64 := Ascon64b.squeezeRateU64
  readRateBytes := Ascon64b.readRateBytes checks
  writeRateBytes := Ascon64b.writeRateBytes checks
  applyDomainSep := Ascon64b.applyDomainSep
  applyAeadPad := Ascon64b.applyAeadPad checks
  tagBytes := Ascon64b.tagBytes
  squeezeByte := Ascon64b.squeezeByte
  absorbBlock := Ascon64b.absorbBlock
  round := Ascon64b.round
  p8 := Ascon.p8 Ascon64b.round
  p12 := Ascon.p12 Ascon64b.round

def core32b (checks : Bool) : Core Ascon32b.State where
  initAead := Ascon32b.initAead
  initHash := Ascon32b.initHash
  xorWord := Ascon32b.xorWord
  xorRate128Bytes := Ascon32b.xorRate128Bytes
  xorPartialRate := Ascon32b.xorPartialRate checks
  encryptInPlaceBlock := Ascon32b.encryptInPlaceBlock
  decryptInPlaceBlock := Ascon32b.decryptInPlaceBlock
  squeezeRateU64 := Ascon32b.squeezeRateU64
  readRateBytes := Ascon32b.readRateBytes checks
  writeRateBytes := Ascon32b.writeRateBytes checks
  applyDomainSep := Ascon32b.applyDomainSep
  applyAeadPad := Ascon32b.applyAeadPad checks
  tagBytes := Ascon32b.tagBytes
  squeezeByte := Ascon32b.squeezeByte
  absorbBlock := Ascon32b.absorbBlock
  round := Ascon32b.round
  p8 := Ascon.p8 Ascon32b.round
  p12 := Ascon.p12 Ascon32b.round

structure Carries {σ τ : Type} (f : σ → τ) (c : Core σ) (d : Core τ) : Prop where
  initAead : ∀ key nonce iv, d.initAead key nonce iv = f (c.initAead key nonce iv)
  initHash : ∀ iv, d.initHash iv = f (c.initHash iv)
  xorWord : ∀ s idx val, d.xorWord (f s) idx val = (c.xorWord s idx val).map f
  xorRate128Bytes : ∀ s bytes, d.xorRate128Bytes (f s) bytes = f (c.xorRate128Bytes s bytes)
  xorPartialRate : ∀ s bytes, d.xorPartialRate (f s) bytes = (c.xorPartialRate s bytes).map f
  encryptInPlaceBlock : ∀ s inOut,
    d.encryptInPlaceBlock (f s) inOut = Prod.map f id (c.encryptInPlaceBlock s inOut)
  decryptInPlaceBlock : ∀ s inOut,
    d.decryptInPlaceBlock (f s) inOut = Prod.map f id (c.decryptInPlaceBlock s inOut)
  squeezeRateU64 : ∀ s, d.squeezeRateU64 (f s) = c.squeezeRateU64 s
  readRateBytes : ∀ s n, d.readRateBytes (f s) n = c.readRateBytes s n
  writeRateBytes : ∀ s bytes, d.writeRateBytes (f s) bytes = (c.writeRateBytes s bytes).map f
  applyDomainSep : ∀ s, d.applyDomainSep (f s) = f (c.applyDomainSep s)
  applyAeadPad : ∀ s n, d.applyAeadPad (f s) n = (c.applyAeadPad s n).map f
  tagBytes : ∀ s, d.tagBytes (f s) = c.tagBytes s
  squeezeByte : ∀ s, d.squeezeByte (f s) = c.squeezeByte s
  absorbBlock : ∀ s block, d.absorbBlock (f s) block = (c.absorbBlock s block).map f
  round : ∀ s constant, d.round (f s) constant = f (c.round s constant)
  p8 : ∀ s, d.p8 (f s) = f (c.p8 s)
  p12 : ∀ s, d.p12 (f s) = f (c.p12 s)

theorem interleave_carries (checks : Bool) :
    Carries interleave (core64b checks) (core32b checks) where
  initAead := initAead_interleave
  initHash := initHash_interleave
  xorWord := xorWord_interleave
  xorRate128Bytes := xorRate128Bytes_interleave
  xorPartialRate := xorPartialRate_interleave checks
  encryptInPlaceBlock := encryptInPlaceBlock_interleave
  decryptInPlaceBlock := decryptInPlaceBlock_interleave
  squeezeRateU64 := squeezeRateU64_interleave
  readRateBytes := readRateBytes_interleave checks
  writeRateBytes := writeRateBytes_interleave checks
  applyDomainSep := applyDomainSep_interleave
  applyAeadPad := applyAeadPad_interleave checks
  tagBytes := tagBytes_interleave
  squeezeByte := squeezeByte_interleave
  absorbBlock := absorbBlock_interleave
  round := round_interleave
  p8 := p8_interleave
  p12 := p12_interleave

/-! ## AEAD -/

/-- The whole blocks of `as_chunks::<16>`. -/
def asChunks (data : Bytes) : List (FixedBytes 16) :=
  if h : 16 ≤ data.length then
    ⟨data.take 16, by rw [List.length_take]; omega⟩ :: asChunks (data.drop 16)
  else []
termination_by data.length
decreasing_by
  rw [List.length_drop]
  omega

def remainder (data : Bytes) : Bytes := data.drop (16 * (data.length / 16))

structure AsconAead128 where
  iv : BitVec 64
  k0 : BitVec 64
  k1 : BitVec 64
  key : FixedBytes 16

def AsconAead128.new (key : FixedBytes 16) : AsconAead128 :=
  ⟨0x00001000808c0001, fromLeBytes (key.octets.take 8), fromLeBytes (key.octets.drop 8), key⟩

section

variable {σ : Type} (core : Core σ)

namespace AsconAead128

variable (aead : AsconAead128)

def initState (nonce : FixedBytes 16) : Option σ := do
  let s := core.p12 (core.initAead aead.key nonce aead.iv)
  let s ← core.xorWord s 3 aead.k0
  core.xorWord s 4 aead.k1

def absorbRemainder (s : σ) (rest : Bytes) : Option σ :=
  if rest = [] then some s else core.xorPartialRate s rest

def processAd (s : σ) (aad : Bytes) : Option σ :=
  if aad = [] then some s
  else do
    let s := (asChunks aad).foldl (fun s chunk => core.p8 (core.xorRate128Bytes s chunk)) s
    let s ← absorbRemainder core s (remainder aad)
    let s ← core.applyAeadPad s (remainder aad).length
    some (core.p8 s)

def computeTag (s : σ) : Bytes :=
  let tag := (core.tagBytes s).octets
  toLeBytes (fromLeBytes (tag.take 8) ^^^ aead.k0) ++
    toLeBytes (fromLeBytes (tag.drop 8) ^^^ aead.k1)

def blocks (step : σ → FixedBytes 16 → σ × FixedBytes 16) : σ → List (FixedBytes 16) → σ × Bytes
  | s, [] => (s, [])
  | s, chunk :: chunks =>
    let (s, out) := step s chunk
    let (s, rest) := blocks step (core.p8 s) chunks
    (s, out.octets ++ rest)

def encryptRemainder (s : σ) (rest : Bytes) : Option (σ × Bytes) :=
  if rest.length > 0 then do
    let s ← core.xorPartialRate s rest
    let out ← core.readRateBytes s rest.length
    some (s, out)
  else some (s, [])

def decryptRemainder (s : σ) (rest : Bytes) : Option (σ × Bytes) :=
  if rest.length > 0 then do
    let out ← core.readRateBytes s rest.length
    let s ← core.applyAeadPad s rest.length
    let s ← core.writeRateBytes s rest
    some (s, List.zipWith (· ^^^ ·) out rest)
  else do
    let s ← core.applyAeadPad s 0
    some (s, [])

def finish (s : σ) : Option σ := do
  let s ← core.xorWord s 2 aead.k0
  let s ← core.xorWord s 3 aead.k1
  some (core.p12 s)

def encryptInPlace (inOut nonce aad : Bytes) : Option (Bytes × Bytes) :=
  if h : nonce.length = 16 then do
    let s ← initState core aead ⟨nonce, h⟩
    let s ← processAd core s aad
    let (s, front) := blocks core core.encryptInPlaceBlock (core.applyDomainSep s) (asChunks inOut)
    let (s, back) ← encryptRemainder core s (remainder inOut)
    let s ← core.applyAeadPad s (inOut.length % 16)
    let s ← finish core aead s
    some (computeTag core aead s, front ++ back)
  else none

def decryptInPlace (inOut nonce aad tag : Bytes) : Option (Except AeadError Unit × Bytes) :=
  if tag.length ≠ 16 then some (.error .invalidCiphertext, inOut)
  else if h : nonce.length = 16 then do
    let s ← initState core aead ⟨nonce, h⟩
    let s ← processAd core s aad
    let (s, front) := blocks core core.decryptInPlaceBlock (core.applyDomainSep s) (asChunks inOut)
    let (s, back) ← decryptRemainder core s (remainder inOut)
    let s ← finish core aead s
    if computeTag core aead s = tag then some (.ok (), front ++ back)
    else some (.error .invalidCiphertext, List.replicate inOut.length 0)
  else some (.error .invalidNonce, inOut)

end AsconAead128

/-! ## Hash and XOF -/

structure Buffered (σ : Type) where
  state : σ
  buf : FixedBytes 8
  bufLen : Nat

namespace Buffered

variable {core}

def start (core : Core σ) (iv : BitVec 64) : Buffered σ :=
  ⟨core.p12 (core.initHash iv), .zeroed 8, 0⟩

def block (core : Core σ) (s : σ) (bytes : Bytes) : Option σ :=
  (core.absorbBlock s bytes).map core.p12

def blocks (core : Core σ) (s : σ) (data : Bytes) : Nat → Option σ
  | 0 => some s
  | count + 1 => do blocks core (← block core s (data.take 8)) (data.drop 8) count

/-- The chunks of `as_chunks::<8>` and the octets behind them. -/
def absorbRest (core : Core σ) (b : Buffered σ) (data : Bytes) : Option (Buffered σ) := do
  let state ← blocks core b.state data (data.length / 8)
  let rest := data.drop (8 * (data.length / 8))
  if rest = [] then some { b with state := state }
  else
    let buf ← b.buf.copyInto 0 rest
    some ⟨state, buf, rest.length⟩

def flush (core : Core σ) (b : Buffered σ) : Option (Buffered σ) :=
  if b.bufLen = 8 then (block core b.state b.buf.octets).map fun s => ⟨s, b.buf, 0⟩ else some b

def absorb (core : Core σ) (b : Buffered σ) (data : Bytes) : Option (Buffered σ) :=
  if b.bufLen > 0 then do
    let toFill := min (8 - b.bufLen) data.length
    let buf ← b.buf.copyInto b.bufLen (data.take toFill)
    let b ← flush core ⟨b.state, buf, b.bufLen + toFill⟩
    absorbRest core b (data.drop toFill)
  else absorbRest core b data

/-- The buffer with the padding behind it; `none` is an index out of range. -/
def paddedBlock (b : Buffered σ) : Option Bytes :=
  if b.bufLen < 8 then
    some (b.buf.octets.take b.bufLen ++ [0x01] ++ List.replicate (8 - (b.bufLen + 1)) 0)
  else none

def padAndFinalize (core : Core σ) (b : Buffered σ) : Option σ := do
  block core b.state (← paddedBlock b)

end Buffered

/-- `AsconHash256::sum` -/
def hash256Sum (b : Buffered σ) : Option Bytes := do
  let s0 ← b.padAndFinalize core
  let s1 := core.p12 s0
  let s2 := core.p12 s1
  let s3 := core.p12 s2
  some (toLeBytes (core.squeezeRateU64 s0) ++ toLeBytes (core.squeezeRateU64 s1) ++
    toLeBytes (core.squeezeRateU64 s2) ++ toLeBytes (core.squeezeRateU64 s3))

def HASH_IV : BitVec 64 := 0x0000080100cc0002
def XOF_IV : BitVec 64 := 0x0000080000cc0003
def CXOF_IV : BitVec 64 := 0x0000080000cc0004

structure Xof (σ : Type) where
  buffered : Buffered σ
  squeezing : Bool
  squeezePos : Nat
  currentBlock : Bytes

namespace Xof

variable {core}

def ofBuffered (b : Buffered σ) : Xof σ := ⟨b, false, 0, List.replicate 8 0⟩

/-- `AsconXof128::new` -/
def new (core : Core σ) : Xof σ := ofBuffered (.start core XOF_IV)

def customize (core : Core σ) (s : σ) (z : Bytes) : Option σ := do
  let s ← Buffered.blocks core s z (z.length / 8)
  let rest := z.drop (8 * (z.length / 8))
  Buffered.block core s (rest ++ [0x01] ++ List.replicate (8 - (rest.length + 1)) 0)

/-- `AsconCxof128::new_with_customization`; a longer customization panics. -/
def newWithCustomization (core : Core σ) (z : Bytes) : Option (Xof σ) :=
  if z.length ≤ 256 then do
    let s := core.p12 (core.initHash CXOF_IV)
    let s ← Buffered.block core s (toLeBytes (BitVec.ofNat 64 (z.length * 8)))
    let s ← customize core s z
    some (ofBuffered ⟨s, .zeroed 8, 0⟩)
  else none

def absorb (core : Core σ) (xof : Xof σ) (data : Bytes) : Option (Xof σ) :=
  if xof.squeezing then none
  else (xof.buffered.absorb core data).map fun b => { xof with buffered := b }

def refill (core : Core σ) (s : σ) (pos : Nat) (block : Bytes) : Bytes :=
  if pos = 0 then core.squeezeByte s else block

/-- `while !remaining.is_empty()`: the state, the position, the block and the output. -/
def squeezeLoop (core : Core σ) (s : σ) (pos : Nat) (block : Bytes) (remaining : Nat) :
    Option (σ × Nat × Bytes × Bytes) :=
  if remaining = 0 then some (s, pos, block, [])
  else if pos ≤ 8 then
    let block := refill core s pos block
    let n := min remaining (8 - pos)
    let piece := (block.drop pos).take n
    if pos + n = 8 ∧ remaining - n ≠ 0 then
      (squeezeLoop core (core.p12 s) 0 block (remaining - n)).map fun (s, pos, block, out) =>
        (s, pos, block, piece ++ out)
    else
      -- The position is inside the block only when nothing remains.
      some (s, pos + n, block, piece)
  else none
termination_by (remaining, pos)
decreasing_by
  rename_i hnext
  rcases Nat.lt_or_ge pos 8 with hlt | hge
  · exact Prod.Lex.left _ _ (by omega)
  · -- A block used up by an earlier call.
    have hnone : min remaining (8 - pos) = 0 := by omega
    rw [hnone]
    exact Prod.Lex.right _ (by omega)

def beginSqueeze (core : Core σ) (xof : Xof σ) : Option (Xof σ) :=
  if xof.squeezing then some xof
  else (xof.buffered.padAndFinalize core).map fun s =>
    { xof with buffered := { xof.buffered with state := s }, squeezing := true }

def squeeze (core : Core σ) (xof : Xof σ) (count : Nat) : Option (Xof σ × Bytes) := do
  let xof ← beginSqueeze core xof
  let (s, pos, block, out) ←
    squeezeLoop core xof.buffered.state xof.squeezePos xof.currentBlock count
  some ({ xof with
    buffered := { xof.buffered with state := s }, squeezePos := pos, currentBlock := block }, out)

end Xof

/-! ## Runs -/

def hash256 (parts : List Bytes) : Option Bytes := do
  let b ← parts.foldlM (Buffered.absorb core) (Buffered.start core HASH_IV)
  hash256Sum core b

end

inductive XofCall where
  | absorb (data : Bytes)
  | squeeze (count : Nat)
  deriving DecidableEq, Repr

/-- The outputs of the calls; `none` if one of them panics. -/
def xofRun {σ : Type} (core : Core σ) : Xof σ → List XofCall → Option (List Bytes)
  | _, [] => some []
  | xof, .absorb data :: calls => do xofRun core (← xof.absorb core data) calls
  | xof, .squeeze count :: calls => do
      let (xof, out) ← xof.squeeze core count
      let outs ← xofRun core xof calls
      some (out :: outs)

def xof128 {σ : Type} (core : Core σ) (calls : List XofCall) : Option (List Bytes) :=
  xofRun core (Xof.new core) calls

def cxof128 {σ : Type} (core : Core σ) (z : Bytes) (calls : List XofCall) :
    Option (List Bytes) := do
  xofRun core (← Xof.newWithCustomization core z) calls

/-! ## The same octets -/

section

variable {σ τ : Type} {f : σ → τ} {c : Core σ} {d : Core τ}

namespace AsconAead128

theorem initState_carries (h : Carries f c d) (aead : AsconAead128) (nonce : FixedBytes 16) :
    initState d aead nonce = (initState c aead nonce).map f := by
  simp only [initState, h.initAead, h.p12, h.xorWord, Option.bind_eq_bind]
  cases c.xorWord (c.p12 (c.initAead aead.key nonce aead.iv)) 3 aead.k0 with
  | none => rfl
  | some s => exact h.xorWord s 4 aead.k1

theorem absorbChunks_carries (h : Carries f c d) (chunks : List (FixedBytes 16)) (s : σ) :
    chunks.foldl (fun s chunk => d.p8 (d.xorRate128Bytes s chunk)) (f s) =
      f (chunks.foldl (fun s chunk => c.p8 (c.xorRate128Bytes s chunk)) s) := by
  induction chunks generalizing s with
  | nil => rfl
  | cons chunk chunks ih =>
    rw [List.foldl_cons, List.foldl_cons, h.xorRate128Bytes, h.p8, ih]

theorem absorbRemainder_carries (h : Carries f c d) (s : σ) (rest : Bytes) :
    absorbRemainder d (f s) rest = (absorbRemainder c s rest).map f := by
  by_cases hrest : rest = []
  · rw [absorbRemainder, if_pos hrest, absorbRemainder, if_pos hrest, Option.map_some]
  · rw [absorbRemainder, if_neg hrest, absorbRemainder, if_neg hrest, h.xorPartialRate]

theorem processAd_carries (h : Carries f c d) (s : σ) (aad : Bytes) :
    processAd d (f s) aad = (processAd c s aad).map f := by
  by_cases haad : aad = []
  · rw [processAd, if_pos haad, processAd, if_pos haad, Option.map_some]
  · simp only [processAd, if_neg haad, absorbChunks_carries h, absorbRemainder_carries h,
      Option.bind_eq_bind]
    cases absorbRemainder c
      ((asChunks aad).foldl (fun s chunk => c.p8 (c.xorRate128Bytes s chunk)) s)
      (remainder aad) with
    | none => rfl
    | some s =>
      simp only [Option.map_some, Option.bind_some, h.applyAeadPad]
      cases c.applyAeadPad s (remainder aad).length with
      | none => rfl
      | some s => exact congrArg some (h.p8 s)

theorem blocks_carries (h : Carries f c d)
    {step : σ → FixedBytes 16 → σ × FixedBytes 16} {step' : τ → FixedBytes 16 → τ × FixedBytes 16}
    (hstep : ∀ s chunk, step' (f s) chunk = Prod.map f id (step s chunk))
    (chunks : List (FixedBytes 16)) (s : σ) :
    blocks d step' (f s) chunks = Prod.map f id (blocks c step s chunks) := by
  induction chunks generalizing s with
  | nil => rfl
  | cons chunk chunks ih => simp only [blocks, hstep, Prod.map, id, h.p8, ih]

theorem encryptRemainder_carries (h : Carries f c d) (s : σ) (rest : Bytes) :
    encryptRemainder d (f s) rest = (encryptRemainder c s rest).map (Prod.map f id) := by
  by_cases hrest : rest.length > 0
  · simp only [encryptRemainder, if_pos hrest, h.xorPartialRate, Option.bind_eq_bind]
    cases c.xorPartialRate s rest with
    | none => rfl
    | some s =>
      simp only [Option.map_some, Option.bind_some, h.readRateBytes]
      cases c.readRateBytes s rest.length <;> rfl
  · rw [encryptRemainder, if_neg hrest, encryptRemainder, if_neg hrest]
    rfl

theorem decryptRemainder_carries (h : Carries f c d) (s : σ) (rest : Bytes) :
    decryptRemainder d (f s) rest = (decryptRemainder c s rest).map (Prod.map f id) := by
  by_cases hrest : rest.length > 0
  · simp only [decryptRemainder, if_pos hrest, h.readRateBytes, h.applyAeadPad,
      Option.bind_eq_bind]
    cases c.readRateBytes s rest.length with
    | none => rfl
    | some out =>
      cases c.applyAeadPad s rest.length with
      | none => rfl
      | some s =>
        simp only [Option.map_some, Option.bind_some, h.writeRateBytes]
        cases c.writeRateBytes s rest <;> rfl
  · simp only [decryptRemainder, if_neg hrest, h.applyAeadPad, Option.bind_eq_bind]
    cases c.applyAeadPad s 0 <;> rfl

theorem finish_carries (h : Carries f c d) (aead : AsconAead128) (s : σ) :
    finish d aead (f s) = (finish c aead s).map f := by
  simp only [finish, h.xorWord, Option.bind_eq_bind]
  cases c.xorWord s 2 aead.k0 with
  | none => rfl
  | some s =>
    simp only [Option.map_some, Option.bind_some, h.xorWord]
    cases c.xorWord s 3 aead.k1 with
    | none => rfl
    | some s => exact congrArg some (h.p12 s)

theorem computeTag_carries (h : Carries f c d) (aead : AsconAead128) (s : σ) :
    computeTag d aead (f s) = computeTag c aead s := by
  rw [computeTag, h.tagBytes, computeTag]

theorem encryptInPlace_carries (h : Carries f c d) (aead : AsconAead128)
    (inOut nonce aad : Bytes) :
    encryptInPlace d aead inOut nonce aad = encryptInPlace c aead inOut nonce aad := by
  by_cases hnonce : nonce.length = 16
  · simp only [encryptInPlace, dif_pos hnonce, initState_carries h, Option.bind_eq_bind]
    cases initState c aead ⟨nonce, hnonce⟩ with
    | none => rfl
    | some s =>
      simp only [Option.map_some, Option.bind_some, processAd_carries h]
      cases processAd c s aad with
      | none => rfl
      | some s =>
        simp only [Option.map_some, Option.bind_some, h.applyDomainSep,
          blocks_carries h h.encryptInPlaceBlock, Prod.map_fst, Prod.map_snd, id,
          encryptRemainder_carries h]
        cases encryptRemainder c (blocks c c.encryptInPlaceBlock (c.applyDomainSep s)
          (asChunks inOut)).1 (remainder inOut) with
        | none => rfl
        | some pair =>
          obtain ⟨s, back⟩ := pair
          simp only [Option.map_some, Option.bind_some, Prod.map_apply, id, h.applyAeadPad]
          cases c.applyAeadPad s (inOut.length % 16) with
          | none => rfl
          | some s =>
            simp only [Option.map_some, Option.bind_some, finish_carries h]
            cases finish c aead s with
            | none => rfl
            | some s =>
              simp only [Option.map_some, Option.bind_some, computeTag_carries h]
  · rw [encryptInPlace, dif_neg hnonce, encryptInPlace, dif_neg hnonce]

theorem decryptInPlace_carries (h : Carries f c d) (aead : AsconAead128)
    (inOut nonce aad tag : Bytes) :
    decryptInPlace d aead inOut nonce aad tag = decryptInPlace c aead inOut nonce aad tag := by
  by_cases htag : tag.length ≠ 16
  · rw [decryptInPlace, if_pos htag, decryptInPlace, if_pos htag]
  by_cases hnonce : nonce.length = 16
  · simp only [decryptInPlace, if_neg htag, dif_pos hnonce, initState_carries h,
      Option.bind_eq_bind]
    cases initState c aead ⟨nonce, hnonce⟩ with
    | none => rfl
    | some s =>
      simp only [Option.map_some, Option.bind_some, processAd_carries h]
      cases processAd c s aad with
      | none => rfl
      | some s =>
        simp only [Option.map_some, Option.bind_some, h.applyDomainSep,
          blocks_carries h h.decryptInPlaceBlock, Prod.map_fst, Prod.map_snd, id,
          decryptRemainder_carries h]
        cases decryptRemainder c (blocks c c.decryptInPlaceBlock (c.applyDomainSep s)
          (asChunks inOut)).1 (remainder inOut) with
        | none => rfl
        | some pair =>
          obtain ⟨s, back⟩ := pair
          simp only [Option.map_some, Option.bind_some, Prod.map_apply, id, finish_carries h]
          cases finish c aead s with
          | none => rfl
          | some s =>
            simp only [Option.map_some, Option.bind_some, computeTag_carries h]
  · rw [decryptInPlace, if_neg htag, dif_neg hnonce, decryptInPlace, if_neg htag,
      dif_neg hnonce]

end AsconAead128

namespace Buffered

def map (f : σ → τ) (b : Buffered σ) : Buffered τ := ⟨f b.state, b.buf, b.bufLen⟩

theorem block_carries (h : Carries f c d) (s : σ) (bytes : Bytes) :
    block d (f s) bytes = (block c s bytes).map f := by
  rw [block, h.absorbBlock, block]
  cases c.absorbBlock s bytes with
  | none => rfl
  | some s => exact congrArg some (h.p12 s)

theorem blocks_carries (h : Carries f c d) (count : Nat) (s : σ) (data : Bytes) :
    blocks d (f s) data count = (blocks c s data count).map f := by
  induction count generalizing s data with
  | zero => rfl
  | succ count ih =>
    simp only [blocks, block_carries h, Option.bind_eq_bind]
    cases block c s (data.take 8) with
    | none => rfl
    | some s => exact ih s (data.drop 8)

theorem absorbRest_carries (h : Carries f c d) (b : Buffered σ) (data : Bytes) :
    absorbRest d (b.map f) data = (absorbRest c b data).map (map f) := by
  have hblocks := blocks_carries h (data.length / 8) b.state data
  simp only [absorbRest, map, hblocks, Option.bind_eq_bind]
  cases blocks c b.state data (data.length / 8) with
  | none => rfl
  | some s =>
    simp only [Option.map_some, Option.bind_some]
    by_cases hrest : data.drop (8 * (data.length / 8)) = []
    · rw [if_pos hrest, if_pos hrest]
      rfl
    · rw [if_neg hrest, if_neg hrest]
      cases b.buf.copyInto 0 (data.drop (8 * (data.length / 8))) <;> rfl

theorem flush_carries (h : Carries f c d) (b : Buffered σ) :
    flush d (b.map f) = (flush c b).map (map f) := by
  obtain ⟨s, buf, bufLen⟩ := b
  show flush d ⟨f s, buf, bufLen⟩ = _
  by_cases hfull : bufLen = 8
  · simp only [flush, if_pos hfull, block_carries h]
    cases block c s buf.octets <;> rfl
  · simp only [flush, if_neg hfull]
    rfl

theorem absorb_carries (h : Carries f c d) (b : Buffered σ) (data : Bytes) :
    absorb d (b.map f) data = (absorb c b data).map (map f) := by
  obtain ⟨s, buf, bufLen⟩ := b
  show absorb d ⟨f s, buf, bufLen⟩ data = _
  by_cases hlen : bufLen > 0
  · simp only [absorb, if_pos hlen, Option.bind_eq_bind]
    cases buf.copyInto bufLen (data.take (min (8 - bufLen) data.length)) with
    | none => rfl
    | some next =>
      have hflush := flush_carries h ⟨s, next, bufLen + min (8 - bufLen) data.length⟩
      simp only [map] at hflush
      simp only [Option.bind_some, hflush]
      cases flush c ⟨s, next, bufLen + min (8 - bufLen) data.length⟩ with
      | none => rfl
      | some b => exact absorbRest_carries h b _
  · simp only [absorb, if_neg hlen]
    exact absorbRest_carries h ⟨s, buf, bufLen⟩ data

theorem padAndFinalize_carries (h : Carries f c d) (b : Buffered σ) :
    padAndFinalize d (b.map f) = (padAndFinalize c b).map f := by
  have hpad : (b.map f).paddedBlock = b.paddedBlock := rfl
  simp only [padAndFinalize, hpad, Option.bind_eq_bind]
  cases b.paddedBlock with
  | none => rfl
  | some bytes => exact block_carries h b.state bytes

theorem start_carries (h : Carries f c d) (iv : BitVec 64) : start d iv = (start c iv).map f := by
  rw [start, h.initHash, h.p12]
  rfl

end Buffered

theorem hash256_carries (h : Carries f c d) (parts : List Bytes) :
    hash256 d parts = hash256 c parts := by
  have hparts : ∀ b : Buffered σ,
      parts.foldlM (Buffered.absorb d) (b.map f) =
        (parts.foldlM (Buffered.absorb c) b).map (Buffered.map f) := by
    induction parts with
    | nil =>
      intro b
      rfl
    | cons part parts ih =>
      intro b
      rw [List.foldlM_cons, List.foldlM_cons, Buffered.absorb_carries h]
      cases Buffered.absorb c b part with
      | none => rfl
      | some next => exact ih next
  rw [hash256, hash256, Buffered.start_carries h, hparts]
  cases parts.foldlM (Buffered.absorb c) (Buffered.start c HASH_IV) with
  | none => rfl
  | some b =>
    simp only [Option.map_some, Option.bind_eq_bind, Option.bind_some, hash256Sum,
      Buffered.padAndFinalize_carries h]
    cases b.padAndFinalize c with
    | none => rfl
    | some s => simp only [Option.map_some, Option.bind_some, h.p12, h.squeezeRateU64]

namespace Xof

def map (f : σ → τ) (xof : Xof σ) : Xof τ :=
  ⟨xof.buffered.map f, xof.squeezing, xof.squeezePos, xof.currentBlock⟩

theorem new_carries (h : Carries f c d) : new d = (new c).map f := by
  rw [new, Buffered.start_carries h]
  rfl

theorem customize_carries (h : Carries f c d) (s : σ) (z : Bytes) :
    customize d (f s) z = (customize c s z).map f := by
  simp only [customize, Buffered.blocks_carries h, Option.bind_eq_bind]
  cases Buffered.blocks c s z (z.length / 8) with
  | none => rfl
  | some s => exact Buffered.block_carries h s _

theorem newWithCustomization_carries (h : Carries f c d) (z : Bytes) :
    newWithCustomization d z = (newWithCustomization c z).map (map f) := by
  by_cases hz : z.length ≤ 256
  · simp only [newWithCustomization, if_pos hz, h.initHash, h.p12, Buffered.block_carries h,
      Option.bind_eq_bind]
    cases Buffered.block c (c.p12 (c.initHash CXOF_IV))
      (toLeBytes (BitVec.ofNat 64 (z.length * 8))) with
    | none => rfl
    | some s =>
      simp only [Option.map_some, Option.bind_some, customize_carries h]
      cases customize c s z <;> rfl
  · rw [newWithCustomization, if_neg hz, newWithCustomization, if_neg hz]
    rfl

theorem absorb_carries (h : Carries f c d) (xof : Xof σ) (data : Bytes) :
    (xof.map f).absorb d data = (xof.absorb c data).map (map f) := by
  by_cases hsqueezing : xof.squeezing = true
  · rw [absorb, absorb, if_pos hsqueezing,
      if_pos (show (xof.map f).squeezing = true from hsqueezing)]
    rfl
  · rw [absorb, absorb, if_neg hsqueezing,
      if_neg (show ¬(xof.map f).squeezing = true from hsqueezing)]
    have hbuffered := Buffered.absorb_carries h xof.buffered data
    show ((xof.buffered.map f).absorb d data).map _ = _
    rw [hbuffered]
    cases xof.buffered.absorb c data <;> rfl

theorem refill_carries (h : Carries f c d) (s : σ) (pos : Nat) (block : Bytes) :
    refill d (f s) pos block = refill c s pos block := by
  rw [refill, refill, h.squeezeByte]

theorem squeezeLoop_carries (h : Carries f c d) (s : σ) (pos : Nat) (block : Bytes)
    (remaining : Nat) :
    squeezeLoop d (f s) pos block remaining =
      (squeezeLoop c s pos block remaining).map (Prod.map f id) := by
  induction s, pos, block, remaining using squeezeLoop.induct c with
  | case1 s pos block =>
    rw [squeezeLoop, if_pos rfl, squeezeLoop, if_pos rfl]
    rfl
  | case2 s pos block remaining hrest hpos block' n hnext ih =>
    have hleft : squeezeLoop d (f s) pos block remaining =
        (squeezeLoop d (f (c.p12 s)) 0 block' (remaining - n)).map fun (s, pos, next, out) =>
          (s, pos, next, (block'.drop (8 - n)).take n ++ out) := by
      have hback : 8 - n = pos := by omega
      rw [squeezeLoop, if_neg hrest, if_pos hpos]
      simp only [refill_carries h]
      rw [if_pos hnext, h.p12, hback]
    have hright : squeezeLoop c s pos block remaining =
        (squeezeLoop c (c.p12 s) 0 block' (remaining - n)).map fun (s, pos, next, out) =>
          (s, pos, next, (block'.drop (8 - n)).take n ++ out) := by
      have hback : 8 - n = pos := by omega
      rw [squeezeLoop, if_neg hrest, if_pos hpos]
      simp only []
      rw [if_pos hnext, hback]
    rw [hleft, hright, ih]
    cases squeezeLoop c (c.p12 s) 0 block' (remaining - n) <;> rfl
  | case3 s pos block remaining hrest hpos n hend =>
    rw [squeezeLoop, if_neg hrest, if_pos hpos, squeezeLoop, if_neg hrest, if_pos hpos]
    simp only [refill_carries h]
    rw [if_neg hend, if_neg hend]
    rfl
  | case4 s pos block remaining hrest hpos =>
    rw [squeezeLoop, if_neg hrest, if_neg hpos, squeezeLoop, if_neg hrest, if_neg hpos]
    rfl

theorem beginSqueeze_carries (h : Carries f c d) (xof : Xof σ) :
    (xof.map f).beginSqueeze d = (xof.beginSqueeze c).map (map f) := by
  obtain ⟨buffered, squeezing, pos, block⟩ := xof
  show beginSqueeze d ⟨buffered.map f, squeezing, pos, block⟩ = _
  cases squeezing with
  | true => rfl
  | false =>
    simp only [beginSqueeze, Bool.false_eq_true, if_false, Buffered.padAndFinalize_carries h]
    cases buffered.padAndFinalize c <;> rfl

theorem squeeze_carries (h : Carries f c d) (xof : Xof σ) (count : Nat) :
    (xof.map f).squeeze d count = (xof.squeeze c count).map (Prod.map (map f) id) := by
  simp only [squeeze, beginSqueeze_carries h, Option.bind_eq_bind]
  cases xof.beginSqueeze c with
  | none => rfl
  | some next =>
    have hloop := squeezeLoop_carries h next.buffered.state next.squeezePos next.currentBlock
      count
    simp only [Option.map_some, Option.bind_some]
    show (squeezeLoop d (f next.buffered.state) next.squeezePos next.currentBlock count).bind _ =
      _
    rw [hloop]
    cases squeezeLoop c next.buffered.state next.squeezePos next.currentBlock count <;> rfl

end Xof

theorem xofRun_carries (h : Carries f c d) (calls : List XofCall) (xof : Xof σ) :
    xofRun d (xof.map f) calls = xofRun c xof calls := by
  induction calls generalizing xof with
  | nil => rfl
  | cons call calls ih =>
    cases call with
    | absorb data =>
      simp only [xofRun, Xof.absorb_carries h, Option.bind_eq_bind]
      cases xof.absorb c data with
      | none => rfl
      | some next => exact ih next
    | squeeze count =>
      simp only [xofRun, Xof.squeeze_carries h, Option.bind_eq_bind]
      cases xof.squeeze c count with
      | none => rfl
      | some pair =>
        obtain ⟨next, out⟩ := pair
        simp only [Option.map_some, Option.bind_some, Prod.map_apply, id, ih]

theorem xof128_carries (h : Carries f c d) (calls : List XofCall) :
    xof128 d calls = xof128 c calls := by
  rw [xof128, Xof.new_carries h, xofRun_carries h, xof128]

theorem cxof128_carries (h : Carries f c d) (z : Bytes) (calls : List XofCall) :
    cxof128 d z calls = cxof128 c z calls := by
  simp only [cxof128, Xof.newWithCustomization_carries h, Option.bind_eq_bind]
  cases Xof.newWithCustomization c z with
  | none => rfl
  | some xof => exact xofRun_carries h calls xof

end

/-- The map of the states is a bijection that commutes with every operation, and the modes
over the two cores compute the same octets, with debug assertions and without. -/
theorem cores_agree (checks : Bool) :
    Function.Bijective interleave ∧
    Carries interleave (core64b checks) (core32b checks) ∧
    (∀ (aead : AsconAead128) (inOut nonce aad : Bytes),
      aead.encryptInPlace (core32b checks) inOut nonce aad =
        aead.encryptInPlace (core64b checks) inOut nonce aad) ∧
    (∀ (aead : AsconAead128) (inOut nonce aad tag : Bytes),
      aead.decryptInPlace (core32b checks) inOut nonce aad tag =
        aead.decryptInPlace (core64b checks) inOut nonce aad tag) ∧
    (∀ parts, hash256 (core32b checks) parts = hash256 (core64b checks) parts) ∧
    (∀ calls, xof128 (core32b checks) calls = xof128 (core64b checks) calls) ∧
    ∀ z calls, cxof128 (core32b checks) z calls = cxof128 (core64b checks) z calls := by
  have h := interleave_carries checks
  exact ⟨interleave_bijective, h, AsconAead128.encryptInPlace_carries h,
    AsconAead128.decryptInPlace_carries h, hash256_carries h, xof128_carries h,
    cxof128_carries h⟩

end Stdx.Ascon
