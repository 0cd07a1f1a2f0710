import Stdx.MaxMindDb.Metadata

/-!
# The database reader

Opening a database and looking an address up.  The type a record is deserialized into
is a parameter: its `deserialize` gets a decoder in front of the record.
-/

namespace Stdx.MaxMindDb

open Stdx.Foundation Stdx.Ipnetwork

structure Reader where
  buf : Bytes
  metadata : Metadata
  ipv4Start : Nat
  pointerBase : Nat
  limits : DecodeLimits

/-! ## Nodes -/

def oob {α : Type} : DecodeResult α :=
  .err (.invalidDatabaseError "search tree node offset beyond end of file")

/-- `to_usize(base, &buf[offset..offset + len])` where the slice is within the buffer -/
def usizeAt (buf : Bytes) (base offset len : Nat) : DecodeResult Nat :=
  if offset + len ≤ buf.length then
    .ok (toUsize base ((buf.drop offset).take len))
  else
    oob

def readNodeSized (buf : Bytes) (recordSize nodeNumber index : Nat) : DecodeResult Nat :=
  let baseOffset := nodeNumber * recordSize / 4
  if recordSize = 24 then
    usizeAt buf 0 (baseOffset + index * 3) 3
  else if recordSize = 28 then
    let mid := baseOffset + 3
    if mid ≥ buf.length then
      oob
    else
      let middle := buf.getD mid 0
      let middle := if index ≠ 0 then middle &&& 0x0F else (0xF0 &&& middle) >>> 4
      usizeAt buf middle.toNat (baseOffset + index * 4) 3
  else
    usizeAt buf 0 (baseOffset + index * 4) 4

namespace Reader

def readNode (r : Reader) (nodeNumber index : Nat) : DecodeResult Nat :=
  match r.metadata.recordSize with
  | 24 => readNodeSized r.buf 24 nodeNumber index
  | 28 => readNodeSized r.buf 28 nodeNumber index
  | 32 => readNodeSized r.buf 32 nodeNumber index
  | s => .err (.invalidDatabaseError s!"unknown record size: {s}")

def zeroWalk (r : Reader) : Nat → Nat → DecodeResult Nat
  | 0, node => .ok node
  | turns + 1, node =>
    if node ≥ r.metadata.nodeCount then
      .ok node
    else do
      let node ← r.readNode node 0
      r.zeroWalk turns node

def findIpv4Start (r : Reader) : DecodeResult Nat :=
  if r.metadata.ipVersion ≠ 6 then .ok 0 else r.zeroWalk 96 0

def startNode (r : Reader) (length : Nat) : Nat := if length = 128 then 0 else r.ipv4Start

/-! ## Opening -/

def fromSourceWithOptions (buf : Bytes) (limits : DecodeLimits) : DecodeResult Reader := do
  let metadataStart ← findMetadataStart buf
  let metadata ←
    Metadata.deserialize (Decoder.withLimits (buf.drop metadataStart) 0 limits)
  validateMetadata metadata
  if metadata.nodeCount * metadata.recordSize ≥ USIZE_LIMIT then
    .err (.invalidDatabaseError "search tree size overflow")
  else
    let searchTreeSize := metadata.nodeCount * metadata.recordSize / 4
    if searchTreeSize > metadataStart - 16 then
      .err (.invalidDatabaseError
        "the MaxMind DB file's search tree is larger than the file")
    else do
      let reader : Reader := {
        buf := buf
        metadata := metadata
        ipv4Start := 0
        pointerBase := searchTreeSize + 16
        limits := limits }
      let ipv4Start ← reader.findIpv4Start
      return { reader with ipv4Start := ipv4Start }

def fromSource (buf : Bytes) : DecodeResult Reader := fromSourceWithOptions buf {}

/-! ## Lookup -/

def addressWalk (r : Reader) (ip : Bytes) : Nat → Nat → Nat → DecodeResult (Nat × Nat)
  | 0, i, node => .ok (node, i)
  | left + 1, i, node =>
    if node ≥ r.metadata.nodeCount then
      .ok (node, i)
    else do
      let node ← r.readNode node (bitAt ip i).toNat
      r.addressWalk ip left (i + 1) node

def findAddressInTreeSized (r : Reader) (ip : Bytes) : DecodeResult (Nat × Nat) := do
  let bitCount := ip.length * 8
  let (node, prefixLen) ← r.addressWalk ip bitCount 0 (r.startNode bitCount)
  if node = r.metadata.nodeCount then
    return (0, prefixLen)
  else if node > r.metadata.nodeCount then
    return (node, prefixLen)
  else do
    let dataPtr ← r.readNode node 0
    if dataPtr > r.metadata.nodeCount then
      return (dataPtr, prefixLen)
    else
      .err (.invalidDatabaseError "invalid node in search tree")

def findAddressInTree (r : Reader) (ip : Bytes) : DecodeResult (Nat × Nat) :=
  match r.metadata.recordSize with
  | 24 | 28 | 32 => r.findAddressInTreeSized ip
  | s => .err (.invalidDatabaseError s!"unknown record size: {s}")

def resolveDataPointer (r : Reader) (pointer : Nat) : DecodeResult Nat :=
  let nodeCount := r.metadata.nodeCount
  if pointer ≤ nodeCount then
    .err (.addressNotFoundError (.v4 0))
  else if pointer < nodeCount + 16 then
    .err (.invalidDatabaseError (s!"data pointer value {pointer} falls in the invalid range " ++
      "(node_count + 1 to node_count + 15)"))
  else
    let resolved := pointer - nodeCount - 16
    if r.pointerBase + resolved < r.buf.length then
      .ok resolved
    else
      .err (.invalidDatabaseError "the MaxMind DB file's search tree is corrupt")

def locate (r : Reader) (address : IpAddr) : DecodeResult (Nat × Nat) :=
  if r.metadata.ipVersion = 4 ∧ address.isIpv6 then
    .err (.invalidInputError "IPv6 address cannot be looked up in an IPv4-only database")
  else do
    let (pointer, prefixLen) ← r.findAddressInTree address.octets
    if pointer = 0 then
      .err (.addressNotFoundError address)
    else do
      let rec ← r.resolveDataPointer pointer
      return (rec, prefixLen)

/-- The decoder in front of a record of the data section. -/
def recordDecoder (r : Reader) (rec : Nat) : Decoder :=
  Decoder.withLimits (r.buf.drop r.pointerBase) rec r.limits

section

variable {T : Type} (deserialize : Decoder → DecodeResult T)

def lookupPrefix (r : Reader) (address : IpAddr) : DecodeResult (T × Nat) := do
  let (rec, prefixLen) ← r.locate address
  let v ← deserialize (r.recordDecoder rec)
  return (v, prefixLen)

def lookup (r : Reader) (address : IpAddr) : DecodeResult T := do
  let (v, _) ← r.lookupPrefix deserialize address
  return v

end

end Reader

end Stdx.MaxMindDb
