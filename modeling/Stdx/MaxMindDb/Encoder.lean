import Stdx.Foundation.Outcome
import Stdx.MaxMindDb.Value

/-!
# The value encoder

Each function returns the octets it appends to the buffer of its serializer.
-/

namespace Stdx.MaxMindDb

open Stdx.Foundation

structure SerError where
  message : String
  deriving DecidableEq, Repr

def FIRST_SIZE : Nat := 29

def SECOND_SIZE : Nat := FIRST_SIZE + 256

def THIRD_SIZE : Nat := SECOND_SIZE + 65536

def MAX_PAYLOAD_SIZE : Nat := 65821 + 16777216

def checkPayloadSize (len : Nat) : Except SerError Unit :=
  if len ≥ MAX_PAYLOAD_SIZE then
    .error ⟨s!"payload of {len} bytes is too large to encode (maximum is " ++
      s!"{MAX_PAYLOAD_SIZE - 1})"⟩
  else
    .ok ()

/-- The type bits of the control octet and the extended type octet; zero stands for none. -/
def typeOctets (typeNum : Nat) : UInt8 × UInt8 :=
  if typeNum < 8 then (UInt8.ofNat (typeNum <<< 5), 0) else (0, UInt8.ofNat (typeNum - 7))

def sizeBits (payloadLen : Nat) : UInt8 :=
  if payloadLen < FIRST_SIZE then UInt8.ofNat payloadLen
  else if payloadLen < SECOND_SIZE then 29
  else if payloadLen < THIRD_SIZE then 30
  else 31

def sizeOctets (payloadLen : Nat) : Bytes :=
  if payloadLen < FIRST_SIZE then []
  else if payloadLen < SECOND_SIZE then [UInt8.ofNat (payloadLen - FIRST_SIZE)]
  else if payloadLen < THIRD_SIZE then
    let v := payloadLen - SECOND_SIZE
    [UInt8.ofNat (v >>> 8), UInt8.ofNat (v &&& 0xFF)]
  else
    let v := payloadLen - THIRD_SIZE
    [UInt8.ofNat (v >>> 16), UInt8.ofNat (v >>> 8), UInt8.ofNat (v &&& 0xFF)]

def ctrlAndSize (typeNum payloadLen : Nat) : Bytes :=
  let (firstByte, secondByte) := typeOctets typeNum
  (firstByte ||| sizeBits payloadLen) ::
    ((if secondByte ≠ 0 then [secondByte] else []) ++ sizeOctets payloadLen)

def writeStrRaw (s : String) : Except SerError Bytes := do
  checkPayloadSize (utf8 s).length
  return ctrlAndSize 2 (utf8 s).length ++ utf8 s

def writeBytesRaw (b : Bytes) : Except SerError Bytes := do
  checkPayloadSize b.length
  return ctrlAndSize 4 b.length ++ b

def leadingZeros {w : Nat} (n : BitVec w) : Nat :=
  if n = 0 then w else w - 1 - n.toNat.log2

/-- The loop `for i in (0..size).rev()` that pushes the octets of an integer. -/
def pushOctets (n size : Nat) : Bytes :=
  (List.range size).reverse.map fun i => UInt8.ofNat (n >>> (8 * i))

def serializeInteger {w : Nat} (typeNum : Nat) (n : BitVec w) : Bytes :=
  let size := w / 8 - leadingZeros n / 8
  ctrlAndSize typeNum size ++ pushOctets n.toNat size

def encodePointerRaw (pointer : BitVec 32) : Bytes :=
  let p := pointer.toNat
  if p < 2048 then
    [(0b00100000 : UInt8) ||| (UInt8.ofNat (p >>> 8) &&& 0x07), UInt8.ofNat (p &&& 0xFF)]
  else if p < 526336 then
    let v := p - 2048
    [(0b00101000 : UInt8) ||| (UInt8.ofNat (v >>> 16) &&& 0x07), UInt8.ofNat (v >>> 8),
      UInt8.ofNat (v &&& 0xFF)]
  else if p < 134744064 then
    let v := p - 526336
    [(0b00110000 : UInt8) ||| (UInt8.ofNat (v >>> 24) &&& 0x07), UInt8.ofNat (v >>> 16),
      UInt8.ofNat (v >>> 8), UInt8.ofNat (v &&& 0xFF)]
  else
    [0b00111000, UInt8.ofNat (p >>> 24), UInt8.ofNat (p >>> 16), UInt8.ofNat (p >>> 8),
      UInt8.ofNat (p &&& 0xFF)]

mutual

def serializeValue : Value → Except SerError Bytes
  | .pointer p => return encodePointerRaw p
  | .string s => writeStrRaw s
  | .float64 bits => return ctrlAndSize 3 8 ++ fixedOctets 8 bits.toNat
  | .bytes b => writeBytesRaw b
  | .uint16 n => return serializeInteger 5 n
  | .uint32 n => return serializeInteger 6 n
  | .int32 n => return serializeInteger 8 n
  | .uint64 n => return serializeInteger 9 n
  | .uint128 n => return serializeInteger 10 n
  | .map m => do
      checkPayloadSize m.length
      let body ← serializeEntries m
      return ctrlAndSize 7 m.length ++ body
  | .slice s => do
      checkPayloadSize s.length
      let body ← serializeElements s
      return ctrlAndSize 11 s.length ++ body
  | .bool b => return ctrlAndSize 14 (if b then 1 else 0)
  | .float32 bits => return ctrlAndSize 15 4 ++ fixedOctets 4 bits.toNat

def serializeEntries : List (String × Value) → Except SerError Bytes
  | [] => return []
  | (k, v) :: rest => do
      let key ← writeStrRaw k
      let val ← serializeValue v
      let rest ← serializeEntries rest
      return key ++ val ++ rest

def serializeElements : List Value → Except SerError Bytes
  | [] => return []
  | v :: rest => do
      let val ← serializeValue v
      let rest ← serializeElements rest
      return val ++ rest

end

def encodeValue (v : Value) : Except String Bytes := (serializeValue v).mapError (·.message)

/-! ## Lengths and contents of what is written -/

theorem checkPayloadSize_eq_ok {len : Nat} {u : Unit} :
    checkPayloadSize len = .ok u ↔ len < MAX_PAYLOAD_SIZE := by
  rw [checkPayloadSize]
  split <;> simp <;> omega

theorem writeStrRaw_eq_ok {s : String} {b : Bytes} :
    writeStrRaw s = .ok b ↔
      (utf8 s).length < MAX_PAYLOAD_SIZE ∧ b = ctrlAndSize 2 (utf8 s).length ++ utf8 s := by
  rw [writeStrRaw, except_bind_eq_ok]
  simp only [checkPayloadSize_eq_ok, exists_and_left, pure, Except.pure, Except.ok.injEq]
  simp [eq_comm]

theorem writeBytesRaw_eq_ok {octets b : Bytes} :
    writeBytesRaw octets = .ok b ↔
      octets.length < MAX_PAYLOAD_SIZE ∧ b = ctrlAndSize 4 octets.length ++ octets := by
  rw [writeBytesRaw, except_bind_eq_ok]
  simp only [checkPayloadSize_eq_ok, exists_and_left, pure, Except.pure, Except.ok.injEq]
  simp [eq_comm]

theorem encodeValue_eq_ok {v : Value} {b : Bytes} :
    encodeValue v = .ok b ↔ serializeValue v = .ok b := by
  rw [encodeValue]
  cases serializeValue v with
  | error e => simp [Except.mapError]
  | ok a => simp [Except.mapError]

theorem serializeMap_eq_ok {m : List (String × Value)} {b : Bytes} :
    serializeValue (.map m) = .ok b ↔ m.length < MAX_PAYLOAD_SIZE ∧
      ∃ body, serializeEntries m = .ok body ∧ b = ctrlAndSize 7 m.length ++ body := by
  rw [serializeValue, except_bind_eq_ok]
  simp only [checkPayloadSize_eq_ok, except_bind_eq_ok, pure, Except.pure, Except.ok.injEq]
  simp [eq_comm]

theorem serializeSlice_eq_ok {s : List Value} {b : Bytes} :
    serializeValue (.slice s) = .ok b ↔ s.length < MAX_PAYLOAD_SIZE ∧
      ∃ body, serializeElements s = .ok body ∧ b = ctrlAndSize 11 s.length ++ body := by
  rw [serializeValue, except_bind_eq_ok]
  simp only [checkPayloadSize_eq_ok, except_bind_eq_ok, pure, Except.pure, Except.ok.injEq]
  simp [eq_comm]

theorem serializeEntries_cons_eq_ok {k : String} {v : Value} {rest : List (String × Value)}
    {b : Bytes} :
    serializeEntries ((k, v) :: rest) = .ok b ↔ ∃ key val tail, writeStrRaw k = .ok key ∧
      serializeValue v = .ok val ∧ serializeEntries rest = .ok tail ∧ b = key ++ val ++ tail := by
  rw [serializeEntries]
  simp only [except_bind_eq_ok, pure, Except.pure, Except.ok.injEq]
  simp [eq_comm]

theorem serializeElements_cons_eq_ok {v : Value} {rest : List Value} {b : Bytes} :
    serializeElements (v :: rest) = .ok b ↔ ∃ val tail, serializeValue v = .ok val ∧
      serializeElements rest = .ok tail ∧ b = val ++ tail := by
  rw [serializeElements]
  simp only [except_bind_eq_ok, pure, Except.pure, Except.ok.injEq]
  simp [eq_comm]

theorem length_pushOctets (n size : Nat) : (pushOctets n size).length = size := by
  simp [pushOctets]

theorem beValue_pushOctets (n size : Nat) : beValue (pushOctets n size) = n % 256 ^ size := by
  induction size with
  | zero => simp [pushOctets, Nat.mod_one]
  | succ size ih =>
    have hstep : pushOctets n (size + 1) =
        UInt8.ofNat (n >>> (8 * size)) :: pushOctets n size := by
      simp [pushOctets, List.range_succ]
    have hpow : 2 ^ (8 * size) = 256 ^ size := by
      rw [pow_mul, show (2 : Nat) ^ 8 = 256 by norm_num]
    rw [hstep, beValue_cons, length_pushOctets, ih, UInt8.toNat_ofNat',
      show (2 : Nat) ^ 8 = 256 by norm_num, Nat.shiftRight_eq_div_pow, hpow, pow_succ,
      Nat.mod_mul, Nat.mul_comm, Nat.add_comm]

theorem lt_pow_size {w : Nat} (hw : 8 ∣ w) (n : BitVec w) :
    n.toNat < 256 ^ (w / 8 - leadingZeros n / 8) := by
  have hpow : ∀ k, 256 ^ k = 2 ^ (8 * k) := by
    intro k
    rw [pow_mul, show (2 : Nat) ^ 8 = 256 by norm_num]
  rw [leadingZeros, hpow]
  split
  · next hzero => simp [hzero]
  · next hne =>
    have hpos : n.toNat ≠ 0 := fun h => hne (BitVec.eq_of_toNat_eq (by simpa using h))
    have hlog : n.toNat.log2 < w := (Nat.log2_lt hpos).mpr n.isLt
    calc n.toNat < 2 ^ (n.toNat.log2 + 1) := Nat.lt_log2_self
      _ ≤ 2 ^ (8 * (w / 8 - (w - 1 - n.toNat.log2) / 8)) :=
        Nat.pow_le_pow_right (by omega) (by omega)

end Stdx.MaxMindDb
