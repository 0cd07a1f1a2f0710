import Stdx.Foundation.Digits

/-!
# Writing into a fixed buffer

A writer fills a buffer of fixed size from the front and reports whether there was room.
`Emits w text` says all there is to know about a writer that succeeds exactly when the text
fits; `Fails w` is a writer that never succeeds.  A sequence of writers stops at the first
that fails.
-/

namespace Stdx.Foundation

structure Buf where
  bytes : Bytes
  len : Nat

abbrev Writer := Buf → Bool × Buf

namespace Buf

def byte (octet : UInt8) : Writer := fun buf =>
  if buf.len < buf.bytes.length then (true, ⟨buf.bytes.set buf.len octet, buf.len + 1⟩)
  else (false, buf)

def put (text : Bytes) (buf : Buf) : Buf :=
  ⟨buf.bytes.take buf.len ++ text ++ buf.bytes.drop (buf.len + text.length),
    buf.len + text.length⟩

def writeBytes (text : Bytes) : Writer := fun buf =>
  if buf.len + text.length ≤ buf.bytes.length then (true, buf.put text) else (false, buf)

end Buf

/-- `first(..) && second(..)` -/
def Writer.andThen (first second : Writer) : Writer := fun buf =>
  match first buf with
  | (true, buf) => second buf
  | (false, buf) => (false, buf)

def writeAll : List Writer → Writer
  | [] => fun buf => (true, buf)
  | first :: rest => Writer.andThen first (writeAll rest)

/-- The writer succeeds exactly when the rest of the buffer holds `text`, which it writes. -/
def Emits (w : Writer) (text : Bytes) : Prop :=
  ∀ buf : Buf, buf.len ≤ buf.bytes.length →
    (buf.len + text.length ≤ buf.bytes.length → w buf = (true, buf.put text)) ∧
      (buf.bytes.length < buf.len + text.length → (w buf).1 = false)

def Fails (w : Writer) : Prop := ∀ buf, (w buf).1 = false

namespace Buf

theorem length_put {text : Bytes} {buf : Buf} (h : buf.len + text.length ≤ buf.bytes.length) :
    (buf.put text).bytes.length = buf.bytes.length := by
  simp only [put, List.length_append, List.length_take, List.length_drop]
  omega

@[simp] theorem len_put (text : Bytes) (buf : Buf) :
    (buf.put text).len = buf.len + text.length := rfl

theorem put_nil (buf : Buf) : buf.put [] = buf := by
  simp [put]

theorem put_put {first second : Bytes} {buf : Buf}
    (h : buf.len + first.length ≤ buf.bytes.length) :
    (buf.put first).put second = buf.put (first ++ second) := by
  have hfront : (buf.bytes.take buf.len ++ first).length = buf.len + first.length := by
    simp only [List.length_append, List.length_take]
    omega
  have htake : (buf.put first).bytes.take (buf.len + first.length) =
      buf.bytes.take buf.len ++ first := by
    rw [put, ← hfront, List.take_left]
  have hdrop : (buf.put first).bytes.drop (buf.len + first.length + second.length) =
      buf.bytes.drop (buf.len + (first ++ second).length) := by
    rw [put, List.drop_append, hfront, List.drop_eq_nil_of_le (by omega), List.nil_append,
      List.drop_drop, List.length_append]
    congr 1
    omega
  rw [put, len_put, htake, hdrop]
  simp [put, Nat.add_assoc]

theorem take_put {text : Bytes} {bytes : Bytes} :
    ((⟨bytes, 0⟩ : Buf).put text).bytes.take text.length = text := by
  simp [put]

end Buf

theorem emits_bytes (text : Bytes) : Emits (Buf.writeBytes text) text := by
  intro buf _
  exact ⟨fun h => if_pos h, fun h => by rw [Buf.writeBytes, if_neg (by omega)]⟩

theorem emits_byte (octet : UInt8) : Emits (Buf.byte octet) [octet] := by
  intro buf _
  constructor
  · intro h
    simp only [List.length_singleton] at h
    rw [Buf.byte, if_pos (by omega), Buf.put, List.length_singleton,
      List.set_eq_take_append_cons_drop, if_pos (by omega), List.append_assoc]
    rfl
  · intro h
    simp only [List.length_singleton] at h
    rw [Buf.byte, if_neg (by omega)]

theorem emits_nothing : Emits (fun buf => (true, buf)) [] := by
  intro buf hlen
  refine ⟨fun _ => by rw [Buf.put_nil], fun h => ?_⟩
  simp only [List.length_nil] at h
  omega

theorem Emits.andThen {first second : Writer} {s t : Bytes} (hfirst : Emits first s)
    (hsecond : Emits second t) : Emits (first.andThen second) (s ++ t) := by
  intro buf hlen
  rw [List.length_append, Writer.andThen]
  constructor
  · intro h
    have hroom : buf.len + s.length ≤ buf.bytes.length := by omega
    rw [(hfirst buf hlen).1 hroom]
    dsimp only
    have hlength := Buf.length_put hroom
    rw [((hsecond (buf.put s)) (by rw [hlength]; exact hroom)).1
      (by rw [hlength, Buf.len_put]; omega), Buf.put_put hroom]
  · intro h
    by_cases hroom : buf.len + s.length ≤ buf.bytes.length
    · rw [(hfirst buf hlen).1 hroom]
      dsimp only
      have hlength := Buf.length_put hroom
      exact ((hsecond (buf.put s)) (by rw [hlength]; exact hroom)).2
        (by rw [hlength, Buf.len_put]; omega)
    · have hfalse := (hfirst buf hlen).2 (by omega)
      split
      · next heq => simp [heq] at hfalse
      · rfl

theorem Emits.congr {w : Writer} {s t : Bytes} (h : Emits w s) (heq : s = t) : Emits w t :=
  heq ▸ h

theorem emits_writeAll {ws : List Writer} {texts : List Bytes}
    (h : List.Forall₂ Emits ws texts) : Emits (writeAll ws) texts.flatten := by
  induction h with
  | nil => exact emits_nothing
  | cons hfirst _ ih => exact hfirst.andThen ih

theorem Fails.andThen_left {first : Writer} (second : Writer) (h : Fails first) :
    Fails (first.andThen second) := by
  intro buf
  have := h buf
  rw [Writer.andThen]
  split
  · next heq => simp [heq] at this
  · rfl

theorem Fails.andThen_right (first : Writer) {second : Writer} (h : Fails second) :
    Fails (first.andThen second) := by
  intro buf
  rw [Writer.andThen]
  split
  · exact h _
  · rfl

theorem fails_writeAll {ws : List Writer} {w : Writer} (hmem : w ∈ ws) (h : Fails w) :
    Fails (writeAll ws) := by
  induction ws with
  | nil => cases hmem
  | cons first rest ih =>
    rcases List.mem_cons.mp hmem with rfl | hrest
    · exact h.andThen_left _
    · exact (ih hrest).andThen_right _

/-! ## Padded numbers -/

def scratchDigits : Nat → Nat → Bytes → Bytes
  | 0, _, scratch => scratch
  | index + 1, value, scratch =>
    let scratch := UInt8.ofNat (48 + value % 10) :: scratch
    if value / 10 = 0 then scratch else scratchDigits index (value / 10) scratch

def Buf.pad (value width : Nat) : Writer :=
  let scratch := scratchDigits 10 value []
  if scratch.length > width then fun buf => (false, buf)
  else (Buf.writeBytes (List.replicate (width - scratch.length) 48)).andThen
    (Buf.writeBytes scratch)

theorem scratchDigits_eq {index value : Nat} (h : value < 10 ^ (index + 1)) (scratch : Bytes) :
    scratchDigits (index + 1) value scratch = decimalDigits value ++ scratch := by
  induction index generalizing value scratch with
  | zero =>
    have hsmall : value < 10 := by simpa using h
    rw [scratchDigits, if_pos (by omega), decimalDigits_digit hsmall]
    rfl
  | succ index ih =>
    rcases Nat.lt_or_ge value 10 with hsmall | hlarge
    · rw [scratchDigits, if_pos (by omega), decimalDigits_digit hsmall]
      rfl
    · have hpow : 10 ^ (index + 1 + 1) = 10 ^ (index + 1) * 10 := Nat.pow_succ ..
      rw [scratchDigits, if_neg (by omega), ih (by omega), decimalDigits_step hlarge]
      simp [digit]

theorem length_scratchDigits_of_le {index value : Nat} (h : 10 ^ index ≤ value) (scratch : Bytes) :
    (scratchDigits (index + 1) value scratch).length = index + 1 + scratch.length := by
  induction index generalizing value scratch with
  | zero =>
    rw [scratchDigits]
    split
    · simp [Nat.add_comm]
    · simp [scratchDigits, Nat.add_comm]
  | succ index ih =>
    have hpow : 10 ^ (index + 1) = 10 ^ index * 10 := Nat.pow_succ ..
    have hpos : 0 < 10 ^ index := Nat.pow_pos (by norm_num)
    rw [scratchDigits, if_neg (by omega), ih (by omega)]
    simp only [List.length_cons]
    omega

theorem emits_pad {value width : Nat} (hwidth : width < 10) (h : value < 10 ^ (width + 1)) :
    Emits (Buf.pad value (width + 1)) (zeroPadded (width + 1) value) := by
  have hle : 10 ^ (width + 1) ≤ 10 ^ 10 := Nat.pow_le_pow_right (by norm_num) (by omega)
  have hscratch : scratchDigits 10 value [] = decimalDigits value := by
    rw [scratchDigits_eq (h.trans_le hle), List.append_nil]
  have hlength := length_decimalDigits_le.mpr h
  unfold Buf.pad
  rw [hscratch]
  dsimp only
  rw [if_neg (by omega)]
  exact (emits_bytes _).andThen (emits_bytes _)

theorem fails_pad {value width : Nat} (hwidth : width < 9) (h : 10 ^ (width + 1) ≤ value) :
    Fails (Buf.pad value (width + 1)) := by
  have hlong : width + 1 < (scratchDigits 10 value []).length := by
    rcases Nat.lt_or_ge value (10 ^ 10) with hlt | hge
    · rw [scratchDigits_eq hlt, List.append_nil]
      have := (@length_decimalDigits_le width value).not.mpr (by omega)
      omega
    · rw [length_scratchDigits_of_le (by omega)]
      simp only [List.length_nil]
      omega
  intro buf
  unfold Buf.pad
  rw [if_pos hlong]

end Stdx.Foundation
