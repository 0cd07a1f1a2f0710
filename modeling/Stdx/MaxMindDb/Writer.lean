import Stdx.Ipnetwork.Network
import Stdx.MaxMindDb.Encoder

/-!
# The database writer

Networks are inserted into a binary tree whose records name encoded payloads by
key.  Writing numbers the nodes in preorder and packs two records a node; the
writer that receives the octets is one that never fails.
-/

namespace Stdx.MaxMindDb

open Stdx.Foundation Stdx.Ipnetwork

def DATA_SECTION_SEPARATOR : Bytes := List.replicate 16 0

def METADATA_START_MARKER : Bytes :=
  [0xab, 0xcd, 0xef, 0x4d, 0x61, 0x78, 0x4d, 0x69, 0x6e, 0x64, 0x2e, 0x63, 0x6f, 0x6d]

/-! ## The tree -/

/-- A record of a node; a node below it is held with its number and its two records. -/
inductive ChildRecord where
  | empty
  | data (key : Nat)
  | node (nodeNum : Option Nat) (zero one : ChildRecord)
  deriving DecidableEq, Repr

structure Node where
  nodeNum : Option Nat
  zero : ChildRecord
  one : ChildRecord
  deriving DecidableEq, Repr

def Node.new : Node := ⟨none, .empty, .empty⟩

namespace ChildRecord

def ofNode (n : Node) : ChildRecord := .node n.nodeNum n.zero n.one

def subtree : ChildRecord → Node
  | empty => Node.new
  | data key => { Node.new with zero := .data key, one := .data key }
  | node nodeNum zero one => ⟨nodeNum, zero, one⟩

end ChildRecord

/-- `insert` with `rest` for `prefix_len - depth`, which every call lowers by one. -/
def Node.insert (ip : Bytes) (dataKey : Nat) : Nat → Nat → Node → Node
  | 0, _, n => { n with zero := .data dataKey, one := .data dataKey }
  | rest + 1, depth, n =>
    if bitAt ip depth then
      { n with one := .ofNode (insert ip dataKey rest (depth + 1) n.one.subtree) }
    else
      { n with zero := .ofNode (insert ip dataKey rest (depth + 1) n.zero.subtree) }

namespace ChildRecord

def finalize : ChildRecord → Nat → ChildRecord × Nat
  | node _ zero one, nextNode =>
    let (zero, nextZero) := zero.finalize (nextNode + 1)
    let (one, nextOne) := one.finalize nextZero
    (node (some nextNode) zero one, nextOne)
  | record, nextNode => (record, nextNode)

abbrev Write (α : Type) : Type := Checked Bytes String α

def writeAll (octets : Bytes) : Write Unit := fun out => (.ok (), out ++ octets)

/-- Both calls of `unwrap` panic where they find nothing. -/
def resolveRecordValue (nodeCount : Nat) (dataOffsets : List (Nat × Nat)) :
    ChildRecord → Write Nat
  | empty => return nodeCount
  | data key =>
    match dataOffsets.lookup key with
    | some offset => return nodeCount + 16 + offset
    | none => Checked.abort
  | node (some nodeNum) _ _ => return nodeNum
  | node none _ _ => Checked.abort

def octetAt (value shift : Nat) : UInt8 := UInt8.ofNat ((value >>> shift) &&& 0xFF)

/-- The octet between two 28-bit records, with the four high bits of each. -/
def sharedOctet (left right : Nat) : UInt8 :=
  UInt8.ofNat ((((left >>> 24) &&& 0x0F) <<< 4) ||| ((right >>> 24) &&& 0x0F))

def packRecords (recordSize left right : Nat) : Write Unit :=
  match recordSize with
  | 24 => writeAll [octetAt left 16, octetAt left 8, octetAt left 0,
      octetAt right 16, octetAt right 8, octetAt right 0]
  | 28 => writeAll [octetAt left 16, octetAt left 8, octetAt left 0, sharedOctet left right,
      octetAt right 16, octetAt right 8, octetAt right 0]
  | 32 => writeAll [octetAt left 24, octetAt left 16, octetAt left 8, octetAt left 0,
      octetAt right 24, octetAt right 16, octetAt right 8, octetAt right 0]
  | s => Checked.fail s!"unsupported record size: {s}"

def writeNode (nodeCount : Nat) (dataOffsets : List (Nat × Nat)) (recordSize : Nat) :
    ChildRecord → Write Unit
  | node _ zero one => do
      let leftVal ← resolveRecordValue nodeCount dataOffsets zero
      let rightVal ← resolveRecordValue nodeCount dataOffsets one
      let maxRecord := 1 <<< recordSize
      if leftVal ≥ maxRecord ∨ rightVal ≥ maxRecord then
        Checked.fail (s!"record value ({leftVal}, {rightVal}) exceeds max for " ++
          s!"{recordSize} bit record size")
      else do
        packRecords recordSize leftVal rightVal
        zero.writeNode nodeCount dataOffsets recordSize
        one.writeNode nodeCount dataOffsets recordSize
  | _ => return ()

end ChildRecord

open ChildRecord (Write writeAll)

/-! ## The writer -/

structure WriterOptions where
  ipVersion : Nat
  recordSize : Nat
  databaseType : String
  description : List (String × String)
  languages : List String
  buildEpoch : BitVec 64

/--
Keys are handed out in increasing order, so the order of `data_map` is the order
of insertion.  The digests of `data_index` come from the hasher of the standard
library, which the functions that use it take as a parameter.
-/
structure Writer where
  root : Node
  dataMap : List (Nat × Bytes)
  dataIndex : Nat → List Nat
  nodeCount : Nat
  ipVersion : Nat
  recordSize : Nat
  databaseType : String
  description : List (String × String)
  languages : List String
  buildEpoch : BitVec 64
  nextDataKey : Nat

namespace Writer

def new (opts : WriterOptions) : Except String Writer :=
  if opts.ipVersion ≠ 4 ∧ opts.ipVersion ≠ 6 then
    .error s!"invalid ip_version: {opts.ipVersion} (must be 4 or 6)"
  else if opts.recordSize ≠ 24 ∧ opts.recordSize ≠ 28 ∧ opts.recordSize ≠ 32 then
    .error s!"invalid record_size: {opts.recordSize} (must be 24, 28, or 32)"
  else
    .ok {
      root := Node.new
      dataMap := []
      dataIndex := fun _ => []
      nodeCount := 0
      ipVersion := opts.ipVersion
      recordSize := opts.recordSize
      databaseType := opts.databaseType
      description := opts.description
      languages := opts.languages
      buildEpoch := opts.buildEpoch
      nextDataKey := 1 }

section

variable (hash : Bytes → Nat)

def internValue (w : Writer) (encoded : Bytes) : Nat × Writer :=
  let digest := hash encoded
  match (w.dataIndex digest).find? fun key => w.dataMap.lookup key == some encoded with
  | some key => (key, w)
  | none =>
    let key := w.nextDataKey
    (key, { w with
      nextDataKey := key + 1
      dataMap := w.dataMap ++ [(key, encoded)]
      dataIndex := Function.update w.dataIndex digest (w.dataIndex digest ++ [key]) })

def placement (w : Writer) (network : IpNetwork) : Except String (Bytes × Nat) :=
  let prefixLen := network.prefixLen
  let ip := network.network.octets
  if w.ipVersion = 4 ∧ ip.length ≠ 4 then
    .error "cannot insert IPv6 network into an IPv4 tree"
  else if w.ipVersion = 6 ∧ ip.length = 4 then
    .ok (List.replicate 12 0 ++ ip, prefixLen + 96)
  else
    .ok (ip, prefixLen)

def insertEncoded (w : Writer) (ipBytes : Bytes) (prefixLen : Nat) (encoded : Bytes) : Writer :=
  let (dataKey, w) := w.internValue hash encoded
  { w with nodeCount := 0, root := w.root.insert ipBytes dataKey prefixLen 0 }

def insertValue (w : Writer) (network : IpNetwork) (value : Value) : Except String Writer := do
  let (ipBytes, actualPrefixLen) ← w.placement network
  let encoded ← encodeValue value
  return w.insertEncoded hash ipBytes actualPrefixLen encoded

def insert {T : Type} (encodeSerialize : T → Except SerError Bytes) (w : Writer)
    (network : IpNetwork) (value : T) : Except String Writer := do
  let encoded ← (encodeSerialize value).mapError fun e => s!"serialization failed: {e.message}"
  let (ipBytes, actualPrefixLen) ← w.placement network
  return w.insertEncoded hash ipBytes actualPrefixLen encoded

end

def dataSection : List (Nat × Bytes) → List (Nat × Nat) × Bytes :=
  List.foldl (fun (offsets, out) (key, encoded) =>
    (offsets ++ [(key, out.length)], out ++ encoded)) ([], [])

end Writer

def buildMetadataValue (nodeCount : BitVec 32) (recordSize ipVersion : Nat)
    (databaseType : String) (description : List (String × String)) (languages : List String)
    (buildEpoch : BitVec 64) : Value :=
  .map [
    ("binary_format_major_version", .uint16 2),
    ("binary_format_minor_version", .uint16 0),
    ("build_epoch", .uint64 buildEpoch),
    ("database_type", .string databaseType),
    ("description", .map (description.map fun (k, v) => (k, .string v))),
    ("ip_version", .uint16 (BitVec.ofNat 16 ipVersion)),
    ("languages", .slice (languages.map .string)),
    ("node_count", .uint32 nodeCount),
    ("record_size", .uint16 (BitVec.ofNat 16 recordSize))]

def METADATA_MAX_SIZE : Nat := 128 * 1024

def USIZE_LIMIT : Nat := 2 ^ 64

namespace Writer

def finalizeRoot (root : Node) : Node × Nat :=
  let (zero, nextZero) := root.zero.finalize 1
  let (one, nextOne) := root.one.finalize nextZero
  ({ root with zero := zero, one := one }, nextOne)

def metadata (w : Writer) : Value :=
  buildMetadataValue (BitVec.ofNat 32 w.nodeCount) w.recordSize w.ipVersion w.databaseType
    w.description w.languages w.buildEpoch

def writeTo (w : Writer) : Write (Nat × Writer) := do
  let (root, next) := finalizeRoot w.root
  let w := { w with root := root, nodeCount := next }
  if w.nodeCount * w.recordSize ≥ USIZE_LIMIT then
    Checked.fail "search tree size overflow"
  else if w.nodeCount ≥ 2 ^ 32 then
    Checked.fail s!"node count {w.nodeCount} exceeds u32"
  else do
    let searchTreeSizeBytes := w.nodeCount * w.recordSize / 4
    let (dataOffsets, dataOctets) := dataSection w.dataMap
    (ChildRecord.ofNode w.root).writeNode w.nodeCount dataOffsets w.recordSize
    writeAll DATA_SECTION_SEPARATOR
    writeAll dataOctets
    writeAll METADATA_START_MARKER
    match encodeValue w.metadata with
    | .error e => Checked.fail e
    | .ok metadataBytes =>
      if metadataBytes.length > METADATA_MAX_SIZE then
        Checked.fail (s!"encoded metadata is {metadataBytes.length} bytes; the MaxMind DB " ++
          s!"maximum is {METADATA_MAX_SIZE} bytes")
      else do
        writeAll metadataBytes
        return (searchTreeSizeBytes + DATA_SECTION_SEPARATOR.length + dataOctets.length +
          METADATA_START_MARKER.length + metadataBytes.length, w)

end Writer

/-! ## Runs -/

inductive Call (T : Type) where
  | insert (network : IpNetwork) (value : T)
  | insertValue (network : IpNetwork) (value : Value)

section

variable {T : Type} (hash : Bytes → Nat) (encodeSerialize : T → Except SerError Bytes)

def Writer.call (w : Writer) : Call T → Except String Writer
  | .insert network value => w.insert hash encodeSerialize network value
  | .insertValue network value => w.insertValue hash network value

def Writer.run (w : Writer) (calls : List (Call T)) : Writer :=
  calls.foldl (fun w call => (w.call hash encodeSerialize call).toOption.getD w) w

end

end Stdx.MaxMindDb
