import Stdx.Foundation.Octets

/-!
# Folds over the blocks of a message

A block function is applied to the blocks of `m` octets from the front of a message,
with the number of each block.  A hasher that is fed the message in pieces has folded
some of the blocks already and keeps the octets behind them in a buffer: an eager one
has folded every whole block, a lazy one holds the last block back until more octets
arrive.
-/

namespace Stdx.Foundation

variable {σ : Type*}

def blockAt (m : Nat) (data : Bytes) (i : Nat) : Bytes := (data.drop (m * i)).take m

def foldBlocks (m : Nat) (f : Nat → σ → Bytes → σ) (count : Nat) (s : σ) (data : Bytes) : σ :=
  (List.range count).foldl (fun s i => f i s (blockAt m data i)) s

theorem blockAt_length {m : Nat} {data : Bytes} {i : Nat} (h : m * (i + 1) ≤ data.length) :
    (blockAt m data i).length = m := by
  rw [Nat.mul_succ] at h
  simp [blockAt]
  omega

theorem blockAt_append_left {m i : Nat} {front : Bytes} (back : Bytes)
    (h : m * (i + 1) ≤ front.length) : blockAt m (front ++ back) i = blockAt m front i := by
  rw [Nat.mul_succ] at h
  rw [blockAt, blockAt, List.drop_append_of_le_length (by omega),
    List.take_append_of_le_length (by rw [List.length_drop]; omega)]

theorem blockAt_append_right {m a : Nat} {front : Bytes} (back : Bytes)
    (h : front.length = m * a) (i : Nat) :
    blockAt m (front ++ back) (a + i) = blockAt m back i := by
  rw [blockAt, blockAt, Nat.mul_add, ← h, List.drop_length_add_append]

@[simp] theorem foldBlocks_zero (m : Nat) (f : Nat → σ → Bytes → σ) (s : σ) (data : Bytes) :
    foldBlocks m f 0 s data = s := rfl

theorem foldBlocks_succ (m : Nat) (f : Nat → σ → Bytes → σ) (count : Nat) (s : σ)
    (data : Bytes) : foldBlocks m f (count + 1) s data =
      f count (foldBlocks m f count s data) (blockAt m data count) := by
  simp [foldBlocks, List.range_succ]

theorem foldBlocks_one (m : Nat) (f : Nat → σ → Bytes → σ) (s : σ) (data : Bytes) :
    foldBlocks m f 1 s data = f 0 s (data.take m) := by
  simp [foldBlocks, blockAt]

theorem foldBlocks_append_left {m count : Nat} {front : Bytes} (back : Bytes)
    (h : m * count ≤ front.length) (f : Nat → σ → Bytes → σ) (s : σ) :
    foldBlocks m f count s (front ++ back) = foldBlocks m f count s front := by
  induction count with
  | zero => rfl
  | succ count ih =>
    have hprev : m * count ≤ front.length := by
      rw [Nat.mul_succ] at h
      omega
    rw [foldBlocks_succ, foldBlocks_succ, ih hprev, blockAt_append_left back h]

theorem foldBlocks_append_right {m a : Nat} {front : Bytes} (back : Bytes)
    (h : front.length = m * a) (f : Nat → σ → Bytes → σ) (b : Nat) (s : σ) :
    foldBlocks m f (a + b) s (front ++ back) =
      foldBlocks m (fun i => f (a + i)) b (foldBlocks m f a s front) back := by
  induction b with
  | zero => exact foldBlocks_append_left back (Nat.le_of_eq h.symm) f s
  | succ b ih =>
    rw [← Nat.add_assoc, foldBlocks_succ, ih, foldBlocks_succ, blockAt_append_right back h]

/-! ## Fixed arrays -/

namespace FixedBytes

variable {N : Nat}

/-- `buffer[start..start + data.len()].copy_from_slice(data)`; `none` out of range. -/
def copyInto (buffer : FixedBytes N) (start : Nat) (data : Bytes) : Option (FixedBytes N) :=
  if h : start + data.length ≤ N then
    some ⟨buffer.octets.take start ++ data ++ buffer.octets.drop (start + data.length), by
      have := buffer.length_eq
      simp
      omega⟩
  else none

/-- `buffer[..length]`; `none` out of range. -/
def upTo (buffer : FixedBytes N) (length : Nat) : Option Bytes :=
  if length ≤ N then some (buffer.octets.take length) else none

theorem copyInto_octets (buffer : FixedBytes N) {start : Nat} {data : Bytes}
    (h : start + data.length ≤ N) :
    ∃ b, copyInto buffer start data = some b ∧ b.octets =
      buffer.octets.take start ++ data ++ buffer.octets.drop (start + data.length) :=
  ⟨_, dif_pos h, rfl⟩

theorem copyInto_take (buffer : FixedBytes N) {start : Nat} {data : Bytes}
    (h : start + data.length ≤ N) :
    ∃ b, copyInto buffer start data = some b ∧
      b.octets.take (start + data.length) = buffer.octets.take start ++ data := by
  obtain ⟨b, hcopy, hoctets⟩ := buffer.copyInto_octets h
  have hlength := buffer.length_eq
  refine ⟨b, hcopy, ?_⟩
  rw [hoctets, List.take_append_of_le_length (by simp; omega),
    List.take_of_length_le (by simp)]

theorem copyInto_zeros {buffer : FixedBytes N} {front : Bytes} {zeros : Nat}
    (hbuffer : buffer.octets = front ++ List.replicate zeros 0) {gap : Nat} {data : Bytes}
    (h : gap + data.length ≤ zeros) :
    ∃ b, copyInto buffer (front.length + gap) data = some b ∧ b.octets =
      front ++ List.replicate gap 0 ++ data ++
        List.replicate (zeros - (gap + data.length)) 0 := by
  have hlength := buffer.length_eq
  rw [hbuffer, List.length_append, List.length_replicate] at hlength
  obtain ⟨b, hcopy, hoctets⟩ := @copyInto_octets N buffer (front.length + gap) data (by omega)
  refine ⟨b, hcopy, ?_⟩
  have htake : buffer.octets.take (front.length + gap) = front ++ List.replicate gap 0 := by
    rw [hbuffer, List.take_length_add_append, List.take_replicate, Nat.min_eq_left (by omega)]
  have hdrop : buffer.octets.drop (front.length + gap + data.length) =
      List.replicate (zeros - (gap + data.length)) 0 := by
    rw [hbuffer, Nat.add_assoc, List.drop_length_add_append, List.drop_replicate]
  rw [hoctets, htake, hdrop]

theorem upTo_eq (buffer : FixedBytes N) {length : Nat} (h : length ≤ N) :
    buffer.upTo length = some (buffer.octets.take length) := if_pos h

end FixedBytes

/-! ## Bounded strings -/

/-- `Bytes<N>`: at most `N` octets. -/
structure BoundedBytes (N : Nat) where
  octets : Bytes
  length_le : octets.length ≤ N
  deriving DecidableEq

namespace BoundedBytes

variable {N : Nat}

def new : BoundedBytes N := ⟨[], Nat.zero_le N⟩

/-- `none` when the assertion fails. -/
def append (bytes : BoundedBytes N) (data : Bytes) : Option (BoundedBytes N) :=
  if h : bytes.octets.length + data.length ≤ N then
    some ⟨bytes.octets ++ data, by simpa using h⟩
  else none

def push (bytes : BoundedBytes N) (byte : UInt8) : Option (BoundedBytes N) :=
  bytes.append [byte]

def appendAll (bytes : BoundedBytes N) : List Bytes → Option (BoundedBytes N)
  | [] => some bytes
  | data :: rest => do appendAll (← bytes.append data) rest

theorem append_eq (bytes : BoundedBytes N) {data : Bytes}
    (h : bytes.octets.length + data.length ≤ N) :
    ∃ b, bytes.append data = some b ∧ b.octets = bytes.octets ++ data :=
  ⟨_, dif_pos h, rfl⟩

theorem append_octets {bytes b : BoundedBytes N} {data : Bytes} (h : bytes.append data = some b) :
    b.octets = bytes.octets ++ data := by
  rw [append] at h
  split at h
  · rw [← Option.some_inj.mp h]
  · exact absurd h (by simp)

theorem appendAll_eq (words : List Bytes) :
    ∀ {bytes : BoundedBytes N}, bytes.octets.length + words.flatten.length ≤ N →
      ∃ b, bytes.appendAll words = some b ∧ b.octets = bytes.octets ++ words.flatten := by
  induction words with
  | nil =>
    intro bytes _
    exact ⟨bytes, rfl, by simp⟩
  | cons word words ih =>
    intro bytes h
    rw [List.flatten_cons, List.length_append] at h
    obtain ⟨next, happend, hnext⟩ := @append_eq N bytes word (by omega)
    obtain ⟨b, hrest, hoctets⟩ := @ih next (by
      rw [hnext, List.length_append]
      omega)
    refine ⟨b, ?_, ?_⟩
    · rw [appendAll, happend]
      exact hrest
    · rw [hoctets, hnext, List.flatten_cons, List.append_assoc]

end BoundedBytes

/-! ## A message in two parts -/

/-- The message is whole blocks and less than a block behind them. -/
structure EagerSplit (m : Nat) (message whole tail : Bytes) : Prop where
  eq : message = whole ++ tail
  dvd : m ∣ whole.length
  short : tail.length < m

/-- The message is whole blocks and the last block, which may be full. -/
structure LazySplit (m : Nat) (message whole tail : Bytes) : Prop where
  eq : message = whole ++ tail
  dvd : m ∣ whole.length
  le : tail.length ≤ m
  held : tail = [] → whole = []

namespace EagerSplit

variable {m : Nat} {message whole tail : Bytes}

theorem nil (h : 0 < m) : EagerSplit m [] [] [] := ⟨rfl, Nat.dvd_zero m, h⟩

theorem grow (h : EagerSplit m message whole tail) {data : Bytes}
    (hshort : tail.length + data.length < m) :
    EagerSplit m (message ++ data) whole (tail ++ data) :=
  ⟨by rw [h.eq, List.append_assoc], h.dvd, by simpa using hshort⟩

theorem length_mod (h : EagerSplit m message whole tail) :
    message.length % m = tail.length := by
  obtain ⟨count, hcount⟩ := h.dvd
  rw [h.eq, List.length_append, hcount, Nat.mul_add_mod, Nat.mod_eq_of_lt h.short]

end EagerSplit

namespace LazySplit

variable {m : Nat} {message whole tail : Bytes}

theorem nil (m : Nat) : LazySplit m [] [] [] :=
  ⟨rfl, Nat.dvd_zero m, Nat.zero_le m, fun _ => rfl⟩

theorem grow (h : LazySplit m message whole tail) {data : Bytes}
    (hle : tail.length + data.length ≤ m) :
    LazySplit m (message ++ data) whole (tail ++ data) := by
  refine ⟨by rw [h.eq, List.append_assoc], h.dvd, by simpa using hle, fun hnil => ?_⟩
  exact h.held (List.append_eq_nil_iff.mp hnil).1

end LazySplit

end Stdx.Foundation
