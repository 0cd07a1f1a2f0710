import Mathlib.Data.List.GetD
import Stdx.Foundation.Loop
import Stdx.Foundation.Octets

/-!
# HMAC over an incremental hash function

`hmac.rs` for any implementation of the `Hasher` trait, and the keyed hash of RFC 2104.
-/

namespace Stdx.Mac

open Stdx.Foundation

def MAX_HASH_OUTPUT_SIZE : Nat := 64

def MAX_HASH_BLOCK_SIZE : Nat := 136

/-- `trait Hasher`. What `sum` returns depends on the octets fed so far, not on their chunks. -/
structure Hasher where
  State : Type
  BLOCK_SIZE : Nat
  OUTPUT_SIZE : Nat
  block_pos : 0 < BLOCK_SIZE
  output_le : OUTPUT_SIZE ≤ MAX_HASH_OUTPUT_SIZE
  new : State
  update : State → Bytes → State
  sum : State → Bytes
  sum_length : ∀ s, (sum s).length = OUTPUT_SIZE
  sum_updates : ∀ chunks : List Bytes,
    sum (chunks.foldl update new) = sum (update new chunks.flatten)

namespace Hasher

def hash (H : Hasher) (data : Bytes) : Bytes := H.sum (H.update H.new data)

@[simp] theorem hash_length (H : Hasher) (data : Bytes) : (H.hash data).length = H.OUTPUT_SIZE :=
  H.sum_length _

def ofFunction (block output : Nat) (hblock : 0 < block) (houtput : output ≤ MAX_HASH_OUTPUT_SIZE)
    (f : Bytes → Bytes) (hf : ∀ data, (f data).length = output) : Hasher where
  State := Bytes
  BLOCK_SIZE := block
  OUTPUT_SIZE := output
  block_pos := hblock
  output_le := houtput
  new := []
  update := (· ++ ·)
  sum := f
  sum_length := hf
  sum_updates chunks := by
    have hfold (front : Bytes) : chunks.foldl (· ++ ·) front = front ++ chunks.flatten := by
      induction chunks generalizing front with
      | nil => simp
      | cons chunk chunks ih => rw [List.foldl_cons, ih, List.flatten_cons, List.append_assoc]
    rw [hfold]

theorem hash_ofFunction {block output : Nat} (hblock : 0 < block)
    (houtput : output ≤ MAX_HASH_OUTPUT_SIZE) {f : Bytes → Bytes}
    (hf : ∀ data, (f data).length = output) (data : Bytes) :
    (ofFunction block output hblock houtput f hf).hash data = f data := rfl

end Hasher

variable (H : Hasher)

structure Hmac where
  hash : H.State
  opad : Bytes

/-- `key_block[..src.len()].copy_from_slice(src)` on a zeroed block. -/
def copyToBlock (src : Bytes) : Option Bytes :=
  if src.length ≤ MAX_HASH_BLOCK_SIZE then
    some (src ++ List.replicate (MAX_HASH_BLOCK_SIZE - src.length) 0)
  else none

/-- `for i in 0..H::BLOCK_SIZE { pad[i] = key_block[i] ^ byte }`; `none` is the index panic. -/
def xorPad (keyBlock : Bytes) (byte : UInt8) : Option Bytes :=
  if H.BLOCK_SIZE ≤ MAX_HASH_BLOCK_SIZE then
    some (forRange 0 H.BLOCK_SIZE (fun i pad => pad.set i (keyBlock.getD i 0 ^^^ byte))
      (List.replicate MAX_HASH_BLOCK_SIZE 0))
  else none

def normalizeKey (key : Bytes) : Bytes := if key.length > H.BLOCK_SIZE then H.hash key else key

namespace Hmac

variable {H}

def new (key : Bytes) : Option (Hmac H) := do
  let keyBlock ← copyToBlock (normalizeKey H key)
  let innerKey ← xorPad H keyBlock 0x36
  let opad ← xorPad H keyBlock 0x5c
  some ⟨H.update H.new (innerKey.take H.BLOCK_SIZE), opad⟩

def update (mac : Hmac H) (data : Bytes) : Hmac H := { mac with hash := H.update mac.hash data }

def finalize (mac : Hmac H) : Bytes :=
  H.sum (H.update (H.update H.new (mac.opad.take H.BLOCK_SIZE)) (H.sum mac.hash))

end Hmac

/-! ## The keyed hash of RFC 2104 -/

def keyBlock (key : Bytes) : Bytes :=
  (List.range H.BLOCK_SIZE).map ((normalizeKey H key).getD · 0)

def hmac (key message : Bytes) : Bytes :=
  H.hash ((keyBlock H key).map (· ^^^ 0x5c) ++
    H.hash ((keyBlock H key).map (· ^^^ 0x36) ++ message))

@[simp] theorem hmac_length (key message : Bytes) : (hmac H key message).length = H.OUTPUT_SIZE :=
  H.hash_length _

/-! ## The incremental computation -/

theorem forRange_fill (f : Nat → UInt8) {n : Nat} {buffer : Bytes} (h : n ≤ buffer.length) :
    (forRange 0 n (fun i out => out.set i (f i)) buffer).take n = (List.range n).map f := by
  have hrule := forRange_rule (l := 0) (n := n) (f := fun i (out : Bytes) => out.set i (f i))
    (I := fun k out => out.length = buffer.length ∧ out.take k = (List.range k).map f)
    (fun k out _ hk hinv => by
      obtain ⟨hlength, htake⟩ := hinv
      refine ⟨(List.length_set ..).trans hlength, ?_⟩
      have hlt : k < (out.set k (f k)).length := by
        rw [List.length_set]
        omega
      rw [List.take_succ_eq_append_getElem hlt, List.take_set_of_le (Nat.le_refl k), htake,
        List.getElem_set_self, List.range_succ, List.map_append]
      rfl)
    (s := buffer) ⟨rfl, by simp⟩
  simpa using hrule.2

variable {H}

theorem copyToBlock_getD {src block : Bytes} (h : copyToBlock src = some block) (i : Nat) :
    block.getD i 0 = src.getD i 0 := by
  unfold copyToBlock at h
  split at h
  · obtain rfl := Option.some.inj h
    rcases Nat.lt_or_ge i src.length with hi | hi
    · rw [List.getD_append _ _ _ _ hi]
    · rw [List.getD_append_right _ _ _ _ hi, List.getD_eq_default _ _ hi]
      simp [List.getD_eq_getElem?_getD, List.getElem?_replicate]
      split <;> rfl
  · cases h

theorem xorPad_take {block : Bytes} {byte : UInt8} (hblock : H.BLOCK_SIZE ≤ MAX_HASH_BLOCK_SIZE) :
    ∃ pad, xorPad H block byte = some pad ∧ pad.take H.BLOCK_SIZE =
      ((List.range H.BLOCK_SIZE).map (block.getD · 0)).map (· ^^^ byte) := by
  refine ⟨_, if_pos hblock, ?_⟩
  rw [forRange_fill (fun i => block.getD i 0 ^^^ byte) (by simpa using hblock), List.map_map]
  rfl

theorem Hmac.new_eq (key : Bytes) (hblock : H.BLOCK_SIZE ≤ MAX_HASH_BLOCK_SIZE) :
    ∃ mac : Hmac H, Hmac.new key = some mac ∧
      mac.hash = H.update H.new ((keyBlock H key).map (· ^^^ 0x36)) ∧
      mac.opad.take H.BLOCK_SIZE = (keyBlock H key).map (· ^^^ 0x5c) := by
  have hlength : (normalizeKey H key).length ≤ MAX_HASH_BLOCK_SIZE := by
    unfold normalizeKey
    split
    · rw [H.hash_length]
      exact Nat.le_trans H.output_le (by decide)
    · omega
  obtain ⟨block, hnormal⟩ : ∃ block, copyToBlock (normalizeKey H key) = some block :=
    ⟨_, if_pos hlength⟩
  have hkey : (List.range H.BLOCK_SIZE).map (block.getD · 0) = keyBlock H key :=
    List.map_congr_left fun i _ => copyToBlock_getD hnormal i
  obtain ⟨inner, hinner, htake⟩ := @xorPad_take H block 0x36 hblock
  obtain ⟨opad, houter, htake'⟩ := @xorPad_take H block 0x5c hblock
  rw [hkey] at htake htake'
  refine ⟨⟨H.update H.new (inner.take H.BLOCK_SIZE), opad⟩, ?_, congrArg _ htake, htake'⟩
  rw [Hmac.new, hnormal]
  simp only [Option.bind_eq_bind, Option.bind_some, hinner, houter]

theorem Hmac.new_none (key : Bytes) (hblock : MAX_HASH_BLOCK_SIZE < H.BLOCK_SIZE) :
    (Hmac.new key : Option (Hmac H)) = none := by
  have hpad (block : Bytes) : xorPad H block 0x36 = none := if_neg (Nat.not_le.mpr hblock)
  unfold Hmac.new
  cases copyToBlock (normalizeKey H key) with
  | none => rfl
  | some block => simp only [Option.bind_eq_bind, Option.bind_some, hpad, Option.bind_none]

theorem Hmac.finalize_updates (key : Bytes) (hblock : H.BLOCK_SIZE ≤ MAX_HASH_BLOCK_SIZE)
    (chunks : List Bytes) :
    ∃ mac : Hmac H, Hmac.new key = some mac ∧
      (chunks.foldl Hmac.update mac).finalize = hmac H key chunks.flatten := by
  obtain ⟨mac, hnew, hhash, hopad⟩ := Hmac.new_eq (H := H) key hblock
  refine ⟨mac, hnew, ?_⟩
  have hfold (m : Hmac H) : (chunks.foldl Hmac.update m).hash = chunks.foldl H.update m.hash ∧
      (chunks.foldl Hmac.update m).opad = m.opad := by
    induction chunks generalizing m with
    | nil => exact ⟨rfl, rfl⟩
    | cons chunk chunks ih => exact ih (m.update chunk)
  have hinner : H.sum (chunks.foldl H.update mac.hash) =
      H.hash ((keyBlock H key).map (· ^^^ 0x36) ++ chunks.flatten) := by
    have hchunks := H.sum_updates ((keyBlock H key).map (· ^^^ 0x36) :: chunks)
    rw [hhash]
    exact hchunks
  have houter := H.sum_updates [(keyBlock H key).map (· ^^^ 0x5c),
    H.hash ((keyBlock H key).map (· ^^^ 0x36) ++ chunks.flatten)]
  rw [List.flatten_cons, List.flatten_singleton] at houter
  rw [Hmac.finalize, (hfold mac).1, (hfold mac).2, hopad, hinner]
  exact houter

end Stdx.Mac
