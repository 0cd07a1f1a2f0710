import Stdx.Foundation.Utf8

/-!
# MaxMind DB values

Numbers are held as their bits: an `i32` is its two's complement and a float its
IEEE 754 encoding.  A map lists its entries in key order, the order in which a
`BTreeMap` hands them out.
-/

namespace Stdx.MaxMindDb

open Stdx.Foundation

inductive Value where
  | pointer (target : BitVec 32)
  | string (s : String)
  | float64 (bits : BitVec 64)
  | bytes (b : Bytes)
  | uint16 (n : BitVec 16)
  | uint32 (n : BitVec 32)
  | int32 (n : BitVec 32)
  | map (entries : List (String × Value))
  | uint64 (n : BitVec 64)
  | uint128 (n : BitVec 128)
  | slice (elements : List Value)
  | bool (b : Bool)
  | float32 (bits : BitVec 32)

/-- What a visitor is handed: the tag of the callback and its argument. -/
inductive Visited where
  | bytes (b : Bytes)
  | string (s : String)
  | bool (b : Bool)
  | i32 (n : BitVec 32)
  | u16 (n : BitVec 16)
  | u32 (n : BitVec 32)
  | u64 (n : BitVec 64)
  | u128 (n : BitVec 128)
  | f64 (bits : BitVec 64)
  | f32 (bits : BitVec 32)
  | map (entries : List (Visited × Visited))
  | array (elements : List Visited)

mutual

def Value.pointerFree : Value → Bool
  | .pointer _ => false
  | .map entries => entriesPointerFree entries
  | .slice elements => elementsPointerFree elements
  | _ => true

def entriesPointerFree : List (String × Value) → Bool
  | [] => true
  | (_, v) :: rest => v.pointerFree && entriesPointerFree rest

def elementsPointerFree : List Value → Bool
  | [] => true
  | v :: rest => v.pointerFree && elementsPointerFree rest

end

end Stdx.MaxMindDb
