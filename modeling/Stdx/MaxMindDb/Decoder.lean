import Stdx.Foundation.Outcome
import Stdx.Ipnetwork.Network
import Stdx.MaxMindDb.Value

/-!
# The value decoder

A decoder is a cursor into a buffer with the budgets that bound one decode.
Slicing past the end is a panic here, as it is in the source.  Offsets are
unbounded numbers: a cursor never passes the end of the buffer and a declared
size stays below 2²⁵, so the overflow branches of `checked_add` and
`checked_mul` are the ones that `ensure_available` rejects.
-/

namespace Stdx.MaxMindDb

open Stdx.Foundation Stdx.Ipnetwork

inductive MaxMindDBError where
  | addressNotFoundError (address : IpAddr)
  | invalidDatabaseError (message : String)
  | ioError (message : String)
  | mapError (message : String)
  | decodingError (message : String)
  | invalidNetworkError (message : String)
  | invalidInputError (message : String)
  | resourceLimit (message : String)
  deriving DecidableEq, Repr

def USIZE_MAX : Nat := 2 ^ 64 - 1

structure DecodeLimits where
  maxDepth : Nat := 512
  maxValues : Nat := 65536
  maxPayloadBytes : Nat := 2 * 1024 * 1024
  depthFits : maxDepth ≤ USIZE_MAX := by decide
  deriving DecidableEq, Repr

structure Decoder where
  buf : Bytes
  currentPtr : Nat
  limits : DecodeLimits
  depth : Nat
  valuesLeft : Nat
  payloadLeft : Nat
  deriving DecidableEq, Repr

def Decoder.withLimits (buf : Bytes) (startPtr : Nat) (limits : DecodeLimits) : Decoder where
  buf := buf
  currentPtr := startPtr
  limits := limits
  depth := 0
  valuesLeft := limits.maxValues
  payloadLeft := limits.maxPayloadBytes

abbrev Decode (α : Type) : Type := Checked Decoder MaxMindDBError α

def toUsize (base : Nat) (bytes : Bytes) : Nat :=
  bytes.foldl (fun acc b => (acc <<< 8) ||| b.toNat) base

/-! ## The cursor and the budgets -/

def Decoder.skip (d : Decoder) (n : Nat) : Decoder := { d with currentPtr := d.currentPtr + n }

def ensureAvailable (n : Nat) : Decode Unit := fun d =>
  if d.currentPtr + n ≤ d.buf.length then
    (.ok (), d)
  else
    (.err (.invalidDatabaseError (s!"truncated data: expected {n} bytes at offset " ++
      s!"{d.currentPtr} but buffer length is {d.buf.length}")), d)

/-- `self.buf[self.current_ptr..self.current_ptr + n]` -/
def slice (n : Nat) : Decode Bytes := fun d =>
  if d.currentPtr + n ≤ d.buf.length then
    (.ok ((d.buf.drop d.currentPtr).take n), d)
  else
    (.panic, d)

def update (f : Decoder → Decoder) : Decode Unit := fun d => (.ok (), f d)

def withDecoder {α : Type} (f : Decoder → Decode α) : Decode α := fun d => f d d

/-- Slices the next `n` octets and moves the cursor behind them. -/
def takeSlice (n : Nat) : Decode Bytes := do
  let bytes ← slice n
  update (·.skip n)
  return bytes

def eatByte : Decode UInt8 := do
  ensureAvailable 1
  let bytes ← takeSlice 1
  match bytes with
  | b :: _ => return b
  | [] => Checked.abort

def sizeFromCtrlByte (ctrlByte : UInt8) : Decode Nat := do
  let size := (ctrlByte &&& 0x1f).toNat
  let bytesToRead := size - 28
  ensureAvailable bytesToRead
  let sizeBytes ← takeSlice bytesToRead
  if size < 29 then
    return size
  else if size = 29 then
    match sizeBytes with
    | b :: _ => return 29 + b.toNat
    | [] => Checked.abort
  else if size = 30 then
    return 285 + toUsize 0 sizeBytes
  else
    return 65821 + toUsize 0 sizeBytes

def sizeAndType : Decode (Nat × Nat) := do
  let ctrlByte ← eatByte
  let typeNum ←
    if ctrlByte >>> 5 = 0 then
      let extended ← eatByte
      pure (extended.toNat + 7)
    else
      pure (ctrlByte >>> 5).toNat
  let size ← sizeFromCtrlByte ctrlByte
  return (size, typeNum)

def chargeValue : Decode Unit := fun d =>
  if d.valuesLeft = 0 then
    (.err (.resourceLimit ("decoded value count exceeded the configured limit of " ++
      s!"{d.limits.maxValues}")), d)
  else
    (.ok (), { d with valuesLeft := d.valuesLeft - 1 })

def chargePayload (n : Nat) : Decode Unit := fun d =>
  if n ≤ d.payloadLeft then
    (.ok (), { d with payloadLeft := d.payloadLeft - n })
  else
    (.err (.resourceLimit ("decoded string/bytes payload exceeded the configured limit of " ++
      s!"{d.limits.maxPayloadBytes} bytes")), d)

def enterDepth : Decode Unit := fun d =>
  let d := { d with depth := min (d.depth + 1) USIZE_MAX }
  if d.depth > d.limits.maxDepth then
    (.err (.resourceLimit ("data structure nesting exceeded the configured maximum depth of " ++
      s!"{d.limits.maxDepth}")), d)
  else
    (.ok (), d)

/-! ## Scalars -/

def decodeBool (size : Nat) : Decode Bool :=
  match size with
  | 0 => return false
  | 1 => return true
  | s => Checked.fail (.invalidDatabaseError s!"bool of size {s}")

def decodeBytes (size : Nat) : Decode Bytes := do
  chargePayload size
  ensureAvailable size
  takeSlice size

def decodeString (size : Nat) : Decode String := do
  chargePayload size
  ensureAvailable size
  let bytes ← takeSlice size
  match fromUtf8 bytes with
  | some v => return v
  | none => Checked.fail (.invalidDatabaseError "error decoding string")

def decodeIeee (w : Nat) (name : String) (size : Nat) : Decode (BitVec w) := do
  ensureAvailable size
  let value ← slice size
  if value.length = w / 8 then
    let _ ← takeSlice size
    return BitVec.ofNat w (beValue value)
  else
    Checked.fail (.invalidDatabaseError s!"{name} of size {size}")

def decodeFloat (size : Nat) : Decode (BitVec 32) := decodeIeee 32 "float" size

def decodeDouble (size : Nat) : Decode (BitVec 64) := decodeIeee 64 "double" size

def foldOctets (w : Nat) (octets : Bytes) : BitVec w :=
  octets.foldl (fun acc b => (acc <<< 8) ||| BitVec.ofNat w b.toNat) 0

/-- The integer decoders, which differ in the width and in the name the error gives. -/
def decodeInteger (w : Nat) (name : String) (size : Nat) : Decode (BitVec w) :=
  if size ≤ w / 8 then do
    ensureAvailable size
    let value ← takeSlice size
    return foldOctets w value
  else
    Checked.fail (.invalidDatabaseError s!"{name} of size {size}")

def decodeUint64 (size : Nat) : Decode (BitVec 64) := decodeInteger 64 "u64" size

def decodeUint128 (size : Nat) : Decode (BitVec 128) := decodeInteger 128 "u128" size

def decodeUint32 (size : Nat) : Decode (BitVec 32) := decodeInteger 32 "u32" size

def decodeUint16 (size : Nat) : Decode (BitVec 16) := decodeInteger 16 "u16" size

def decodeInt (size : Nat) : Decode (BitVec 32) := decodeInteger 32 "int32" size

def pointerValueOffset : List Nat := [0, 0, 2048, 526336, 0]

def decodePointer (size : Nat) : Decode Nat := do
  let pointerSize := ((size >>> 3) &&& 0x3) + 1
  ensureAvailable pointerSize
  let pointerBytes ← takeSlice pointerSize
  let base := if pointerSize = 4 then 0 else size &&& 0x7
  return toUsize base pointerBytes + pointerValueOffset.getD pointerSize 0

/-! ## Containers and pointers -/

def visitSeq {σ : Type} (element : Checked σ MaxMindDBError Visited) :
    Nat → Checked σ MaxMindDBError (List Visited)
  | 0 => return []
  | count + 1 => do
      let x ← element
      let xs ← visitSeq element count
      return x :: xs

def visitMap {σ : Type} (element : Checked σ MaxMindDBError Visited) :
    Nat → Checked σ MaxMindDBError (List (Visited × Visited))
  | 0 => return []
  | 1 => do
      let _ ← element
      Checked.fail (.decodingError "no more entries")
  | count + 2 => do
      let key ← element
      let val ← element
      let entries ← visitMap element count
      return (key, val) :: entries

def decodeArray (element : Decode Visited) (size : Nat) : Decode Visited :=
  withDecoder fun d =>
    if size > d.valuesLeft then
      Checked.fail (.resourceLimit (s!"array of {size} entries exceeds the remaining decoded " ++
        s!"value budget of {d.valuesLeft}"))
    else do
      let elements ← visitSeq element size
      return .array elements

def decodeMap (element : Decode Visited) (size : Nat) : Decode Visited :=
  withDecoder fun d =>
    if size * 2 > d.valuesLeft then
      Checked.fail (.resourceLimit (s!"map of {size} entries exceeds the remaining decoded " ++
        s!"value budget of {d.valuesLeft}"))
    else do
      let entries ← visitMap element (size * 2)
      return .map entries

def decodeValue (element : Decode Visited) (size typeNum : Nat) : Decode Visited :=
  match typeNum with
  | 2 => return .string (← decodeString size)
  | 3 => return .f64 (← decodeDouble size)
  | 4 => return .bytes (← decodeBytes size)
  | 5 => return .u16 (← decodeUint16 size)
  | 6 => return .u32 (← decodeUint32 size)
  | 7 => decodeMap element size
  | 8 => return .i32 (← decodeInt size)
  | 9 => return .u64 (← decodeUint64 size)
  | 10 => return .u128 (← decodeUint128 size)
  | 11 => decodeArray element size
  | 14 => return .bool (← decodeBool size)
  | 15 => return .f32 (← decodeFloat size)
  | u => Checked.fail (.invalidDatabaseError s!"Unknown data type: {u}")

def restoringDepth {α : Type} (savedDepth : Nat) (code : Decode α) : Decode α := fun d =>
  ((code d).1, { (code d).2 with depth := savedDepth })

def decodeAnyAround (inner : Decode Visited) : Decode Visited := do
  chargeValue
  withDecoder fun d => do
    enterDepth
    restoringDepth d.depth inner

/--
`decode_any_inner`.  Every turn of its loop and every element of a container
enters one more level, so the number of levels left bounds the recursion.
-/
def decodeAnyInner : Nat → Option Nat → Decode Visited
  | 0, _ => Checked.abort
  | levels + 1, restorePtr => do
      let (size, typeNum) ← sizeAndType
      if typeNum = 1 then
        let target ← decodePointer size
        withDecoder fun d =>
          if target ≥ d.buf.length then
            Checked.fail (.invalidDatabaseError (s!"pointer at offset {d.currentPtr - 1} points " ++
              s!"beyond end of buffer ({target})"))
          else do
            enterDepth
            update ({ · with currentPtr := target })
            decodeAnyInner levels (restorePtr.or (some d.currentPtr))
      else
        let result ← decodeValue (decodeAnyAround (decodeAnyInner levels none)) size typeNum
        match restorePtr with
        | some ptr =>
          update ({ · with currentPtr := ptr })
          return result
        | none => return result

def decodeAny : Decode Visited :=
  withDecoder fun d => decodeAnyAround (decodeAnyInner (d.limits.maxDepth - d.depth) none)

end Stdx.MaxMindDb
