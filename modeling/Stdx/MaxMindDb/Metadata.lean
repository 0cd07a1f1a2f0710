import Stdx.MaxMindDb.Decoder
import Stdx.MaxMindDb.Writer

/-!
# Database metadata

The metadata section follows the last occurrence of its marker.  Its derived
deserializer reads the entries through the same decoder as any other value;
here it reads the tree that a collecting visitor is handed, so only the order in
which two errors of one section would be met can differ.
-/

namespace Stdx.MaxMindDb

open Stdx.Foundation

structure Metadata where
  binaryFormatMajorVersion : Nat
  binaryFormatMinorVersion : Nat
  buildEpoch : Nat
  databaseType : String
  description : List (String × String)
  ipVersion : Nat
  languages : List String
  nodeCount : Nat
  recordSize : Nat
  deriving DecidableEq, Repr

abbrev DecodeResult (α : Type) : Type := Outcome MaxMindDBError α

def invalidType {α : Type} (expected : String) : DecodeResult α :=
  .err (.decodingError ("invalid type, expected " ++ expected))

/-! ## The fields -/

def Visited.asUnsigned (bits : Nat) (v : Visited) : DecodeResult Nat :=
  let inRange (n : Int) : DecodeResult Nat :=
    if 0 ≤ n ∧ n < 2 ^ bits then .ok n.toNat
    else .err (.decodingError s!"invalid value: integer {n}, expected u{bits}")
  match v with
  | .u16 n => inRange n.toNat
  | .u32 n => inRange n.toNat
  | .u64 n => inRange n.toNat
  | .i32 n => inRange n.toInt
  | _ => invalidType s!"u{bits}"

def Visited.asString : Visited → DecodeResult String
  | .string s => .ok s
  | .bytes b =>
    match fromUtf8 b with
    | some s => .ok s
    | none => .err (.decodingError "invalid value: byte array, expected a string")
  | _ => invalidType "a string"

def Visited.asStrings : Visited → DecodeResult (List String)
  | .array elements => elements.mapM Visited.asString
  | _ => invalidType "a sequence"

def Visited.asStringMap : Visited → DecodeResult (List (String × String))
  | .map entries => entries.mapM fun (k, v) => do
      let key ← k.asString
      let val ← v.asString
      return (key, val)
  | _ => invalidType "a map"

def FIELDS : List String :=
  ["binary_format_major_version", "binary_format_minor_version", "build_epoch", "database_type",
    "description", "ip_version", "languages", "node_count", "record_size"]

/-- The number of the field that a key names; other keys are ignored. -/
def Visited.asField : Visited → DecodeResult (Option Nat)
  | .string s => .ok (FIELDS.findIdx? (· == s))
  | .bytes b => .ok (FIELDS.findIdx? fun field => utf8 field == b)
  | .u16 n => .ok (if n.toNat < FIELDS.length then some n.toNat else none)
  | .u32 n => .ok (if n.toNat < FIELDS.length then some n.toNat else none)
  | .u64 n => .ok (if n.toNat < FIELDS.length then some n.toNat else none)
  | _ => invalidType "field identifier"

structure PartialMetadata where
  binaryFormatMajorVersion : Option Nat := none
  binaryFormatMinorVersion : Option Nat := none
  buildEpoch : Option Nat := none
  databaseType : Option String := none
  description : Option (List (String × String)) := none
  ipVersion : Option Nat := none
  languages : Option (List String) := none
  nodeCount : Option Nat := none
  recordSize : Option Nat := none

namespace PartialMetadata

def once {α : Type} (name : String) (old : Option α) (read : DecodeResult α) :
    DecodeResult (Option α) :=
  match old with
  | some _ => .err (.decodingError s!"duplicate field {name}")
  | none => do return some (← read)

def readField (m : PartialMetadata) (field : Nat) (v : Visited) : DecodeResult PartialMetadata :=
  let name := FIELDS.getD field ""
  match field with
  | 0 => do return { m with
      binaryFormatMajorVersion := ← once name m.binaryFormatMajorVersion (v.asUnsigned 16) }
  | 1 => do return { m with
      binaryFormatMinorVersion := ← once name m.binaryFormatMinorVersion (v.asUnsigned 16) }
  | 2 => do return { m with buildEpoch := ← once name m.buildEpoch (v.asUnsigned 64) }
  | 3 => do return { m with databaseType := ← once name m.databaseType v.asString }
  | 4 => do return { m with description := ← once name m.description v.asStringMap }
  | 5 => do return { m with ipVersion := ← once name m.ipVersion (v.asUnsigned 16) }
  | 6 => do return { m with languages := ← once name m.languages v.asStrings }
  | 7 => do return { m with nodeCount := ← once name m.nodeCount (v.asUnsigned 32) }
  | 8 => do return { m with recordSize := ← once name m.recordSize (v.asUnsigned 16) }
  | _ => .ok m

def required {α : Type} (field : Nat) : Option α → DecodeResult α
  | some value => .ok value
  | none => .err (.decodingError ("missing field " ++ FIELDS.getD field ""))

def finish (m : PartialMetadata) : DecodeResult Metadata := do
  return {
    binaryFormatMajorVersion := ← required 0 m.binaryFormatMajorVersion
    binaryFormatMinorVersion := ← required 1 m.binaryFormatMinorVersion
    buildEpoch := ← required 2 m.buildEpoch
    databaseType := ← required 3 m.databaseType
    description := ← required 4 m.description
    ipVersion := ← required 5 m.ipVersion
    languages := ← required 6 m.languages
    nodeCount := ← required 7 m.nodeCount
    recordSize := ← required 8 m.recordSize }

def readEntry (m : PartialMetadata) (entry : Visited × Visited) :
    DecodeResult PartialMetadata := do
  let field ← entry.1.asField
  match field with
  | some field => m.readField field entry.2
  | none => return m

end PartialMetadata

/-- `Metadata::deserialize`, which also accepts the fields as a sequence. -/
def Metadata.ofVisited : Visited → DecodeResult Metadata
  | .map entries => do
      let m ← entries.foldlM PartialMetadata.readEntry {}
      m.finish
  | .array elements =>
    if elements.length < FIELDS.length then
      .err (.decodingError (s!"invalid length {elements.length}, expected struct Metadata " ++
        "with 9 elements"))
    else do
      let m ← (elements.take FIELDS.length).zipIdx.foldlM (fun m (v, i) => m.readField i v)
        ({} : PartialMetadata)
      m.finish
  | _ => invalidType "struct Metadata"

def Metadata.deserialize (d : Decoder) : DecodeResult Metadata := do
  let v ← (decodeAny d).1
  Metadata.ofVisited v

def validateMetadata (m : Metadata) : DecodeResult Unit :=
  if m.binaryFormatMajorVersion ≠ 2 then
    .err (.invalidDatabaseError ("unsupported MaxMind DB binary format major version: " ++
      s!"{m.binaryFormatMajorVersion}"))
  else if m.ipVersion ≠ 4 ∧ m.ipVersion ≠ 6 then
    .err (.invalidDatabaseError s!"unsupported IP version in MaxMind DB metadata: {m.ipVersion}")
  else if m.recordSize ≠ 24 ∧ m.recordSize ≠ 28 ∧ m.recordSize ≠ 32 then
    .err (.invalidDatabaseError
      s!"unsupported record size in MaxMind DB metadata: {m.recordSize}")
  else if m.nodeCount = 0 then
    .err (.invalidDatabaseError "the MaxMind DB file has no search tree nodes")
  else
    .ok ()

/-! ## Where the metadata starts -/

def rfind (haystack needle : Bytes) : Option Nat :=
  ((List.range (haystack.length + 1)).filter fun i => needle.isPrefixOf (haystack.drop i)).getLast?

def findMetadataStart (buf : Bytes) : DecodeResult Nat :=
  match rfind buf METADATA_START_MARKER with
  | some x => .ok (x + METADATA_START_MARKER.length)
  | none => .err (.invalidDatabaseError "Could not find MaxMind DB metadata in file.")

end Stdx.MaxMindDb
