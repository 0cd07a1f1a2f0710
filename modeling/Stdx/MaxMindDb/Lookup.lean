import Mathlib
import Stdx.MaxMindDb.SearchTree

/-!
# Finding what was inserted

A reader over the octets of a writer locates, for every address, the payload of the
last inserted network that contains it, and reports an address as missing exactly when
no inserted network contains it.
-/

namespace Stdx.MaxMindDb

open Stdx.Foundation Stdx.Ipnetwork

open ChildRecord (ofNode Write writeAll)

/-! ## Networks of one tree -/

theorem embedded_bounded (n : Ipv4Network) : n.prefixLen + 96 ≤ 128 := by
  have hbounded := n.bounded
  omega

/-- In a tree of version 6 the networks of version 4 are those of `::/96`. -/
def treeNetwork (ipVersion : Nat) : IpNetwork → IpNetwork
  | .v4 n =>
    if ipVersion = 6 then
      .v6 ⟨n.addr.setWidth 128, n.prefixLen + 96, embedded_bounded n⟩
    else .v4 n
  | .v6 n => .v6 n

def treeAddress (ipVersion : Nat) : IpAddr → IpAddr
  | .v4 addr => if ipVersion = 6 then .v6 (addr.setWidth 128) else .v4 addr
  | .v6 addr => .v6 addr

def Placed (ipVersion : Nat) (address : IpAddr) : Prop :=
  (ipVersion = 4 ∧ address.isIpv6 = false) ∨ ipVersion = 6

theorem Placed.isIpv6 {ipVersion : Nat} {address : IpAddr} (h : Placed ipVersion address) :
    (treeAddress ipVersion address).isIpv6 = decide (ipVersion = 6) := by
  rcases h with ⟨rfl, hfamily⟩ | rfl
  · cases address with
    | v4 addr => rfl
    | v6 addr => cases hfamily
  · cases address <;> rfl

theorem isIpv6_treeNetwork {ipVersion : Nat} {network : IpNetwork}
    (h : Placed ipVersion network.network) :
    (treeNetwork ipVersion network).network.isIpv6 = decide (ipVersion = 6) := by
  rcases h with ⟨rfl, hfamily⟩ | rfl
  · cases network with
    | v4 n => rfl
    | v6 n => cases hfamily
  · cases network <;> rfl

theorem octets_setWidth (addr : Ipv4Addr) :
    (IpAddr.v6 (addr.setWidth 128)).octets = List.replicate 12 0 ++ (IpAddr.v4 addr).octets := by
  have hlt := addr.isLt
  have hzero : fixedOctets 12 0 = List.replicate 12 0 := by decide
  have hwidth : (addr.setWidth 128).toNat = addr.toNat := by
    rw [BitVec.toNat_setWidth]
    exact Nat.mod_eq_of_lt (by omega)
  rw [IpAddr.octets, IpAddr.octets, hwidth, show 16 = 12 + 4 from rfl, fixedOctets_add,
    Nat.div_eq_of_lt (by omega), hzero]

theorem network_setWidth (n : Ipv4Network) (h : n.prefixLen + 96 ≤ 128) :
    Network.network ⟨n.addr.setWidth 128, n.prefixLen + 96, h⟩ = n.network.setWidth 128 := by
  have hbound := n.bounded
  apply BitVec.eq_of_getMsbD_eq
  intro i hi
  rw [Network.getMsbD_network, BitVec.getMsbD_setWidth, BitVec.getMsbD_setWidth]
  by_cases hlow : i < 96
  · simp [show ¬128 - 32 ≤ i by omega]
  · rw [Network.getMsbD_network]
    simp only [show i < n.prefixLen + 96 ↔ i + 32 - 128 < n.prefixLen by omega,
      Bool.and_assoc]

theorem prefixLen_le_length (network : IpNetwork) :
    network.prefixLen ≤ network.network.octets.length * 8 := by
  cases network with
  | v4 n => simpa [IpNetwork.prefixLen, IpNetwork.network, IpAddr.octets] using n.bounded
  | v6 n => simpa [IpNetwork.prefixLen, IpNetwork.network, IpAddr.octets] using n.bounded

theorem agree_iff_contains_addr {k : Nat} (n : Network (8 * k)) {base : BitVec (8 * k)}
    (hbase : ∀ i, i < n.prefixLen → base.getMsbD i = n.addr.getMsbD i) (ip : BitVec (8 * k)) :
    BitTrie.Agree (bitAt (fixedOctets k ip.toNat)) (bitAt (fixedOctets k base.toNat)) 0
      n.prefixLen ↔ n.contains ip := by
  have hbound := n.bounded
  rw [Network.contains_iff]
  constructor
  · intro h i hi
    have hbit := h i (Nat.zero_le i) (by omega)
    rwa [bitAt_fixedOctets ip (by omega), bitAt_fixedOctets base (by omega), hbase i hi] at hbit
  · intro h i _ hi
    rw [bitAt_fixedOctets ip (by omega), bitAt_fixedOctets base (by omega), hbase i (by omega),
      h i (by omega)]

theorem getMsbD_network_of_lt {width : Nat} (n : Network width) (i : Nat) (h : i < n.prefixLen) :
    n.network.getMsbD i = n.addr.getMsbD i := by
  rw [Network.getMsbD_network, decide_eq_true h, Bool.and_true]

theorem agree_iff_contains {network : IpNetwork} {address : IpAddr}
    (h : network.network.isIpv6 = address.isIpv6) :
    BitTrie.Agree (bitAt address.octets) (bitAt network.network.octets) 0 network.prefixLen ↔
      network.contains address := by
  cases network with
  | v4 n =>
    cases address with
    | v4 ip => exact agree_iff_contains_addr (k := 4) n (getMsbD_network_of_lt n) ip
    | v6 ip => cases h
  | v6 n =>
    cases address with
    | v4 ip => cases h
    | v6 ip => exact agree_iff_contains_addr (k := 16) n (getMsbD_network_of_lt n) ip

theorem network_of_prefix {address : IpAddr} {prefixLen : Nat}
    (h : prefixLen ≤ address.octets.length * 8) :
    ∃ network, IpNetwork.new address prefixLen = some network ∧ network.prefixLen = prefixLen ∧
      ∀ other, network.contains other ↔ other.isIpv6 = address.isIpv6 ∧
        BitTrie.Agree (bitAt other.octets) (bitAt address.octets) 0 prefixLen := by
  cases address with
  | v4 addr =>
    have hbound : prefixLen ≤ 32 := by simpa [IpAddr.octets] using h
    refine ⟨.v4 ⟨addr, prefixLen, hbound⟩, ?_, rfl, fun other => ?_⟩
    · rw [IpNetwork.new, Network.new, dif_pos hbound]
      rfl
    · cases other with
      | v4 ip =>
        exact (agree_iff_contains_addr (k := 4) ⟨addr, prefixLen, hbound⟩
          (fun _ _ => rfl) ip).symm.trans ⟨fun h => ⟨rfl, h⟩, fun h => h.2⟩
      | v6 ip => simp [IpNetwork.contains, IpAddr.isIpv6]
  | v6 addr =>
    have hbound : prefixLen ≤ 128 := by simpa [IpAddr.octets] using h
    refine ⟨.v6 ⟨addr, prefixLen, hbound⟩, ?_, rfl, fun other => ?_⟩
    · rw [IpNetwork.new, Network.new, dif_pos hbound]
      rfl
    · cases other with
      | v4 ip => simp [IpNetwork.contains, IpAddr.isIpv6]
      | v6 ip =>
        exact (agree_iff_contains_addr (k := 16) ⟨addr, prefixLen, hbound⟩
          (fun _ _ => rfl) ip).symm.trans ⟨fun h => ⟨rfl, h⟩, fun h => h.2⟩

theorem Writer.placement_eq {w : Writer} (hversion : w.ipVersion = 4 ∨ w.ipVersion = 6)
    (network : IpNetwork) :
    (Placed w.ipVersion network.network ∧
      w.placement network = .ok ((treeNetwork w.ipVersion network).network.octets,
        (treeNetwork w.ipVersion network).prefixLen)) ∨
    (¬Placed w.ipVersion network.network ∧ ∃ err, w.placement network = .error err) := by
  unfold Writer.placement
  rcases hversion with hversion | hversion
  · cases network with
    | v4 n => exact .inl ⟨.inl ⟨hversion, rfl⟩, by simp [hversion, treeNetwork,
        IpNetwork.network, IpAddr.octets]⟩
    | v6 n => exact .inr ⟨by simp [Placed, hversion, IpNetwork.network, IpAddr.isIpv6],
        by simp [hversion, IpNetwork.network, IpAddr.octets]⟩
  · refine .inl ⟨.inr hversion, ?_⟩
    cases network with
    | v4 n =>
      have hnetwork := octets_setWidth n.network
      have hbound := n.bounded
      simp only [hversion, treeNetwork, if_true, IpNetwork.network, IpNetwork.prefixLen,
        network_setWidth n (by omega), hnetwork]
      simp [IpAddr.octets]
    | v6 n => simp [hversion, treeNetwork, IpNetwork.network, IpAddr.octets]

/-! ## What was stored -/

section

variable {T : Type} (hash : Bytes → Nat) (encodeSerialize : T → Except SerError Bytes)

def Call.network : Call T → IpNetwork
  | .insert network _ => network
  | .insertValue network _ => network

def Call.encoded : Call T → Option Bytes
  | .insert _ value => (encodeSerialize value).toOption
  | .insertValue _ value => (encodeValue value).toOption

instance (ipVersion : Nat) (address : IpAddr) : Decidable (Placed ipVersion address) :=
  inferInstanceAs (Decidable (_ ∨ _))

def Call.stores (ipVersion : Nat) (call : Call T) : Option (IpNetwork × Bytes) :=
  if Placed ipVersion call.network.network then
    (call.encoded encodeSerialize).map fun encoded => (call.network, encoded)
  else none

def stored (ipVersion : Nat) (calls : List (Call T)) : List (IpNetwork × Bytes) :=
  calls.filterMap (Call.stores encodeSerialize ipVersion)

def lastContaining (ipVersion : Nat) (stored : List (IpNetwork × Bytes)) (address : IpAddr) :
    Option Bytes :=
  (stored.filter fun s =>
    (treeNetwork ipVersion s.1).contains (treeAddress ipVersion address)).getLast?.map (·.2)

def insertion {α : Type} (ipVersion : Nat) (s : IpNetwork × α) : (Nat → Bool) × Nat × α :=
  (bitAt (treeNetwork ipVersion s.1).network.octets, (treeNetwork ipVersion s.1).prefixLen, s.2)

theorem lastCovering_insertion {ipVersion : Nat} {stored : List (IpNetwork × Bytes)}
    {address : IpAddr} (hstored : ∀ s ∈ stored, Placed ipVersion s.1.network)
    (haddress : Placed ipVersion address) :
    BitTrie.lastCovering (bitAt (treeAddress ipVersion address).octets)
      (stored.map (insertion ipVersion)) = lastContaining ipVersion stored address := by
  have hcovers : stored.filter (fun s => decide (BitTrie.Agree
      (bitAt (treeAddress ipVersion address).octets) (insertion ipVersion s).1 0
        (insertion ipVersion s).2.1)) =
      stored.filter fun s =>
        (treeNetwork ipVersion s.1).contains (treeAddress ipVersion address) := by
    apply List.filter_congr
    intro s hs
    have hfamily := (isIpv6_treeNetwork (hstored s hs)).trans haddress.isIpv6.symm
    rw [Bool.eq_iff_iff, decide_eq_true_iff]
    exact agree_iff_contains hfamily
  rw [BitTrie.lastCovering, lastContaining, ← hcovers, List.filter_map, List.getLast?_map,
    Option.map_map]
  rfl

/-! ## The state of the writer -/

structure Writer.Holds (w : Writer) (stored : List (IpNetwork × Bytes)) : Prop where
  version : w.ipVersion = 4 ∨ w.ipVersion = 6
  placed : ∀ s ∈ stored, Placed w.ipVersion s.1.network
  fresh : ∀ entry ∈ w.dataMap, entry.1 < w.nextDataKey
  tree : ∃ keyed : List (IpNetwork × Nat),
    keyed.map (fun k => (k.1, w.dataMap.lookup k.2)) = stored.map (fun s => (s.1, some s.2)) ∧
    (ofNode w.root).trie =
      BitTrie.insertAll (keyed.map (insertion w.ipVersion)) (.node .empty .empty)

theorem lookup_fresh {entries : List (Nat × Bytes)} {key : Nat}
    (h : ∀ entry ∈ entries, entry.1 < key) : entries.lookup key = none := by
  rw [List.lookup_eq_none_iff]
  intro entry hentry
  have hlt := h entry hentry
  exact bne_iff_ne.mpr (Nat.ne_of_gt hlt)

theorem internValue_spec {w w' : Writer} {encoded : Bytes} {key : Nat}
    (hfresh : ∀ entry ∈ w.dataMap, entry.1 < w.nextDataKey)
    (h : w.internValue hash encoded = (key, w')) :
    w'.dataMap.lookup key = some encoded ∧
      (∀ k e, w.dataMap.lookup k = some e → w'.dataMap.lookup k = some e) ∧
      (∀ entry ∈ w'.dataMap, entry.1 < w'.nextDataKey) ∧
      w'.root = w.root ∧ w'.ipVersion = w.ipVersion ∧ w'.recordSize = w.recordSize := by
  unfold Writer.internValue at h
  simp only at h
  split at h
  · next found hfind =>
    obtain ⟨rfl, rfl⟩ := Prod.mk.inj h
    have hsame := List.find?_some hfind
    exact ⟨beq_iff_eq.mp hsame, fun _ _ h => h, hfresh, rfl, rfl, rfl⟩
  · obtain ⟨rfl, rfl⟩ := Prod.mk.inj h
    refine ⟨?_, ?_, ?_, rfl, rfl, rfl⟩
    · rw [List.lookup_append, lookup_fresh hfresh]
      simp
    · intro k e hlookup
      rw [List.lookup_append, hlookup]
      rfl
    · intro entry hentry
      rcases List.mem_append.mp hentry with hentry | hentry
      · exact Nat.lt_succ_of_lt (hfresh entry hentry)
      · obtain rfl := List.mem_singleton.mp hentry
        exact Nat.lt_succ_self _

theorem Writer.Holds.insertEncoded {w : Writer} {stored : List (IpNetwork × Bytes)}
    (h : w.Holds stored) {network : IpNetwork} (hplaced : Placed w.ipVersion network.network)
    (encoded : Bytes) :
    (w.insertEncoded hash (treeNetwork w.ipVersion network).network.octets
      (treeNetwork w.ipVersion network).prefixLen encoded).Holds (stored ++ [(network, encoded)]) ∧
    (w.insertEncoded hash (treeNetwork w.ipVersion network).network.octets
      (treeNetwork w.ipVersion network).prefixLen encoded).ipVersion = w.ipVersion ∧
    (w.insertEncoded hash (treeNetwork w.ipVersion network).network.octets
      (treeNetwork w.ipVersion network).prefixLen encoded).recordSize = w.recordSize := by
  unfold Writer.insertEncoded
  cases hintern : w.internValue hash encoded with
  | mk key w' =>
    obtain ⟨hkey, hkeeps, hfresh, hroot, hversion, hsize⟩ :=
      internValue_spec hash h.fresh hintern
    obtain ⟨keyed, hkeyed, htree⟩ := h.tree
    refine ⟨⟨?_, ?_, hfresh, keyed ++ [(network, key)], ?_, ?_⟩, hversion, hsize⟩
    · simp only [hversion]
      exact h.version
    · intro s hs
      simp only [hversion]
      rcases List.mem_append.mp hs with hs | hs
      · exact h.placed s hs
      · obtain rfl := List.mem_singleton.mp hs
        exact hplaced
    · have hold : keyed.map (fun k => (k.1, w'.dataMap.lookup k.2)) =
          keyed.map (fun k => (k.1, w.dataMap.lookup k.2)) := by
        apply List.map_congr_left
        intro k hk
        have hmem : (k.1, w.dataMap.lookup k.2) ∈ stored.map fun s => (s.1, some s.2) := by
          rw [← hkeyed]
          exact List.mem_map_of_mem hk
        obtain ⟨s, -, hs⟩ := List.mem_map.mp hmem
        have hlookup := (Prod.mk.inj hs).2.symm
        rw [hlookup, hkeeps _ _ hlookup]
      simp only [List.map_append, List.map_cons, List.map_nil, hold, hkeyed, hkey]
    · simp only [hversion, hroot]
      rw [Node.trie_insert, htree, List.map_append, BitTrie.insertAll, BitTrie.insertAll,
        List.foldl_append]
      rfl

/-- What stays as it was created. -/
structure Writer.Kept (w w' : Writer) : Prop where
  version : w'.ipVersion = w.ipVersion
  size : w'.recordSize = w.recordSize

theorem Writer.Holds.call {w : Writer} {stored : List (IpNetwork × Bytes)} (h : w.Holds stored)
    (call : Call T) :
    ((w.call hash encodeSerialize call).toOption.getD w).Holds
      (stored ++ (call.stores encodeSerialize w.ipVersion).toList) ∧
    w.Kept ((w.call hash encodeSerialize call).toOption.getD w) := by
  have hkept : w.Holds (stored ++ (none : Option (IpNetwork × Bytes)).toList) ∧ w.Kept w := by
    rw [Option.toList_none, List.append_nil]
    exact ⟨h, rfl, rfl⟩
  cases call with
  | insert network value =>
    rw [Call.stores, Call.network, Call.encoded, Writer.call, Writer.insert]
    cases hvalue : encodeSerialize value with
    | error err =>
      simp only [Except.toOption, Option.map_none, ite_self]
      exact hkept
    | ok encoded =>
      rcases Writer.placement_eq h.version network with ⟨hplaced, hplacement⟩ |
        ⟨hplaced, err, hplacement⟩
      · rw [if_pos hplaced]
        obtain ⟨hholds, hversion, hsize⟩ := h.insertEncoded hash hplaced encoded
        simp only [Except.mapError, hplacement]
        exact ⟨hholds, hversion, hsize⟩
      · rw [if_neg hplaced]
        simp only [Except.mapError, hplacement]
        exact hkept
  | insertValue network value =>
    rw [Call.stores, Call.network, Call.encoded, Writer.call, Writer.insertValue]
    rcases Writer.placement_eq h.version network with ⟨hplaced, hplacement⟩ |
      ⟨hplaced, err, hplacement⟩
    · rw [if_pos hplaced, hplacement]
      cases hvalue : encodeValue value with
      | error err => exact hkept
      | ok encoded =>
        obtain ⟨hholds, hversion, hsize⟩ := h.insertEncoded hash hplaced encoded
        exact ⟨hholds, hversion, hsize⟩
    · rw [if_neg hplaced, hplacement]
      exact hkept

theorem Writer.Holds.run {w : Writer} {before : List (IpNetwork × Bytes)} (h : w.Holds before)
    (calls : List (Call T)) :
    (w.run hash encodeSerialize calls).Holds
      (before ++ stored encodeSerialize w.ipVersion calls) ∧
    w.Kept (w.run hash encodeSerialize calls) := by
  induction calls generalizing w before with
  | nil =>
    rw [stored, List.filterMap_nil, List.append_nil]
    exact ⟨h, rfl, rfl⟩
  | cons call calls ih =>
    obtain ⟨hcall, hkept⟩ := h.call hash encodeSerialize call
    obtain ⟨hrun, hkept'⟩ := ih hcall
    rw [hkept.version, List.append_assoc] at hrun
    have hstored : stored encodeSerialize w.ipVersion (call :: calls) =
        (call.stores encodeSerialize w.ipVersion).toList ++
          stored encodeSerialize w.ipVersion calls := by
      rw [stored, stored, List.filterMap_cons]
      cases call.stores encodeSerialize w.ipVersion <;> rfl
    rw [hstored]
    exact ⟨hrun, hkept'.version.trans hkept.version, hkept'.size.trans hkept.size⟩

end

theorem Writer.new_holds {opts : WriterOptions} {w : Writer} (h : Writer.new opts = .ok w) :
    w.Holds [] ∧ w.ipVersion = opts.ipVersion ∧ w.recordSize = opts.recordSize ∧
      (w.recordSize = 24 ∨ w.recordSize = 28 ∨ w.recordSize = 32) := by
  unfold Writer.new at h
  split at h
  · cases h
  next hversion =>
  split at h
  · cases h
  next hsize =>
  obtain rfl := Except.ok.inj h
  exact ⟨⟨by simp only; omega, fun s hs => absurd hs List.not_mem_nil,
    fun s hs => absurd hs List.not_mem_nil, [], rfl, rfl⟩, rfl, rfl, by simp only; omega⟩

/-! ## The written octets -/

theorem dataSection_append (entries : List (Nat × Bytes)) (key : Nat) (encoded : Bytes) :
    Writer.dataSection (entries ++ [(key, encoded)]) =
      ((Writer.dataSection entries).1 ++ [(key, (Writer.dataSection entries).2.length)],
        (Writer.dataSection entries).2 ++ encoded) := by
  rw [Writer.dataSection, List.foldl_append]
  rfl

theorem dataSection_lookup (entries : List (Nat × Bytes)) (key : Nat) :
    match entries.lookup key with
    | none => (Writer.dataSection entries).1.lookup key = none
    | some encoded => ∃ offset rest, (Writer.dataSection entries).1.lookup key = some offset ∧
        offset ≤ (Writer.dataSection entries).2.length ∧
        (Writer.dataSection entries).2.drop offset = encoded ++ rest := by
  induction entries using List.reverseRecOn with
  | nil => rfl
  | append_singleton entries entry ih =>
    obtain ⟨k, e⟩ := entry
    rw [dataSection_append, List.lookup_append, List.lookup_append]
    cases hlookup : entries.lookup key with
    | some encoded =>
      rw [hlookup] at ih
      obtain ⟨offset, rest, hoffset, hle, hdrop⟩ := ih
      refine ⟨offset, rest ++ e, by rw [hoffset]; rfl, ?_, ?_⟩
      · rw [List.length_append]
        omega
      · rw [List.drop_append_of_le_length hle, hdrop, List.append_assoc]
    | none =>
      rw [hlookup] at ih
      rw [ih, Option.none_or, Option.none_or]
      by_cases hkey : key = k
      · subst hkey
        have hself (value : Bytes) : List.lookup key [(key, value)] = some value := by
          rw [List.lookup_cons, beq_self_eq_true]
        rw [hself]
        refine ⟨(Writer.dataSection entries).2.length, [], ?_, ?_, ?_⟩
        · rw [List.lookup_cons, beq_self_eq_true]
        · simp
        · simp
      · have hother : (key == k) = false := by simpa using hkey
        simp [List.lookup_cons, hother]

theorem finalizeRoot_spec (root : Node) :
    ∃ zero one, (Writer.finalizeRoot root).1 = ⟨root.nodeNum, zero, one⟩ ∧
      ChildRecord.Numbered 0 (.node (some 0) zero one) ∧
      (ChildRecord.node (some 0) zero one).trie = (ofNode root).trie ∧
      (ChildRecord.node (some 0) zero one).size = (Writer.finalizeRoot root).2 := by
  obtain ⟨htrie, hnumbered, hsize, hnext⟩ := ChildRecord.finalize_spec root.zero 1
  obtain ⟨htrie', hnumbered', hsize', hnext'⟩ :=
    ChildRecord.finalize_spec root.one (root.zero.finalize 1).2
  refine ⟨(root.zero.finalize 1).1, (root.one.finalize (root.zero.finalize 1).2).1, rfl,
    ⟨rfl, hnumbered, ?_⟩, ?_, ?_⟩
  · rw [hsize, ← hnext]
    exact hnumbered'
  · rw [ChildRecord.trie_ofNode, ChildRecord.trie, htrie, htrie']
  · change _ = (root.one.finalize (root.zero.finalize 1).2).2
    rw [ChildRecord.size, hsize, hsize', hnext', hnext]

theorem writeTo_describes {w w' : Writer} {size : Nat} {out : Bytes}
    (hsize : w.recordSize = 24 ∨ w.recordSize = 28 ∨ w.recordSize = 32)
    (h : w.writeTo [] = (.ok (size, w'), out)) :
    ∃ tree rest, out = tree ++ (DATA_SECTION_SEPARATOR ++
        ((Writer.dataSection w.dataMap).2 ++ (METADATA_START_MARKER ++ rest))) ∧
      tree.length = w'.nodeCount * w.recordSize / 4 ∧
      ∀ r : Reader, r.buf = out → r.metadata.nodeCount = w'.nodeCount →
        r.metadata.recordSize = w.recordSize →
        r.Describes (dataPointer w'.nodeCount (Writer.dataSection w.dataMap).1)
          (ofNode w.root).trie 0 := by
  obtain ⟨zero, one, hroot, hnumbered, htrie, hcount⟩ := finalizeRoot_spec w.root
  unfold Writer.writeTo at h
  simp only [hroot] at h
  split at h
  · simp at h
  split at h
  · simp at h
  obtain ⟨_, tree, hwrite, h⟩ := Checked.bind_eq_ok h
  obtain ⟨_, out₁, hseparator, h⟩ := Checked.bind_eq_ok h
  obtain ⟨_, out₂, hdata, h⟩ := Checked.bind_eq_ok h
  obtain ⟨_, out₃, hmarker, h⟩ := Checked.bind_eq_ok h
  obtain ⟨-, rfl⟩ := Prod.mk.inj hseparator
  obtain ⟨-, rfl⟩ := Prod.mk.inj hdata
  obtain ⟨-, rfl⟩ := Prod.mk.inj hmarker
  generalize encodeValue _ = metadata at h
  obtain err | metadataBytes := metadata
  · simp at h
  simp only at h
  split at h
  · simp at h
  obtain ⟨_, out₄, hbytes, h⟩ := Checked.bind_eq_ok h
  obtain ⟨-, rfl⟩ := Prod.mk.inj hbytes
  obtain ⟨hvalue, rfl⟩ := Prod.mk.inj h
  obtain ⟨-, rfl⟩ := Prod.mk.inj (Outcome.ok.inj hvalue)
  obtain ⟨octets, htree, hlength, hdescribes⟩ := ChildRecord.writeNode_describes
    (.node (some 0) zero one) hnumbered (by rw [hcount, Nat.zero_add]) hwrite
  rw [List.nil_append] at htree
  subst htree
  refine ⟨tree, metadataBytes, by simp only [List.append_assoc], ?_, ?_⟩
  · rw [hlength, hcount]
    rcases hsize with hsize | hsize | hsize <;> simp only [hsize] <;> omega
  · intro r hbuf hnode hrecord
    rw [← htrie]
    refine hdescribes r (DATA_SECTION_SEPARATOR ++ ((Writer.dataSection w.dataMap).2 ++
      (METADATA_START_MARKER ++ metadataBytes))) hnode hrecord ?_
    rw [hbuf, Nat.zero_mul, List.drop_zero]
    simp only [List.append_assoc]

/-! ## The reader on these octets -/

namespace Reader

theorem zeroWalk_congr {r r' : Reader} (hbuf : r.buf = r'.buf)
    (hmetadata : r.metadata = r'.metadata) (turns node : Nat) :
    r.zeroWalk turns node = r'.zeroWalk turns node := by
  induction turns generalizing node with
  | zero => rfl
  | succ turns ih =>
    have hread : r.readNode node 0 = r'.readNode node 0 := by
      rw [readNode, readNode, hbuf, hmetadata]
    rw [zeroWalk, zeroWalk, hread, hmetadata]
    simp only [ih]

theorem findIpv4Start_congr {r r' : Reader} (hbuf : r.buf = r'.buf)
    (hmetadata : r.metadata = r'.metadata) : r.findIpv4Start = r'.findIpv4Start := by
  rw [findIpv4Start, findIpv4Start, hmetadata, zeroWalk_congr hbuf hmetadata]

theorem fromSource_spec {buf : Bytes} {limits : DecodeLimits} {r : Reader}
    (h : fromSourceWithOptions buf limits = .ok r) :
    r.buf = buf ∧ r.pointerBase = r.metadata.nodeCount * r.metadata.recordSize / 4 + 16 ∧
      r.findIpv4Start = .ok r.ipv4Start := by
  obtain ⟨start, _, h⟩ := Outcome.bind_eq_ok.mp h
  obtain ⟨metadata, _, h⟩ := Outcome.bind_eq_ok.mp h
  obtain ⟨_, _, h⟩ := Outcome.bind_eq_ok.mp h
  split at h
  · cases h
  simp only at h
  split at h
  · cases h
  obtain ⟨ipv4Start, hstart, h⟩ := Outcome.bind_eq_ok.mp h
  obtain rfl := Outcome.ok.inj h
  refine ⟨rfl, rfl, ?_⟩
  rw [← hstart]
  exact findIpv4Start_congr rfl rfl

end Reader

theorem bitAt_zeros (ip : Bytes) {i : Nat} (h : i < 96) :
    bitAt (List.replicate 12 0 ++ ip) i = false := by
  have hzero : (List.replicate 12 (0 : UInt8) ++ ip).getD (i / 8) 0 = 0 := by
    rw [List.getD_eq_getElem?_getD,
      List.getElem?_append_left (by rw [List.length_replicate]; omega),
      List.getElem?_replicate_of_lt (by omega)]
    rfl
  rw [bitAt, hzero]
  simp

theorem bitAt_afterZeros (ip : Bytes) (i : Nat) :
    bitAt (List.replicate 12 0 ++ ip) (96 + i) = bitAt ip i := by
  rw [bitAt, bitAt, List.getD_eq_getElem?_getD,
    List.getElem?_append_right (by rw [List.length_replicate]; omega), List.length_replicate,
    show (96 + i) / 8 - 12 = i / 8 by omega, show (96 + i) % 8 = i % 8 by omega,
    ← List.getD_eq_getElem?_getD]

def startTrie (ipVersion : Nat) (address : IpAddr) (t : BitTrie Nat) : BitTrie Nat :=
  if ipVersion = 6 ∧ address.isIpv6 = false then t.descend (fun _ => false) 96 0 else t

theorem find_startTrie {ipVersion : Nat} {address : IpAddr} (t : BitTrie Nat) :
    BitTrie.find (bitAt address.octets) 0 (startTrie ipVersion address t) =
      BitTrie.find (bitAt (treeAddress ipVersion address).octets) 0 t := by
  cases address with
  | v6 addr =>
    rw [startTrie, if_neg (fun h => nomatch h.2)]
    rfl
  | v4 addr =>
    by_cases hversion : ipVersion = 6
    · rw [startTrie, if_pos ⟨hversion, rfl⟩, treeAddress, if_pos hversion, octets_setWidth]
      rw [← BitTrie.find_descend (bitAt (List.replicate 12 0 ++ (IpAddr.v4 addr).octets)) 96 0 t,
        show 0 + 96 = 96 + 0 from rfl, ← BitTrie.find_shift _ 96 0]
      have hzeros : BitTrie.Agree (bitAt (List.replicate 12 0 ++ (IpAddr.v4 addr).octets))
          (fun _ => false) 0 96 := fun i _ hi => bitAt_zeros _ (by omega)
      rw [BitTrie.descend_congr hzeros]
      simp only [bitAt_afterZeros]
    · rw [startTrie, if_neg (fun h => hversion h.1), treeAddress, if_neg hversion]

theorem fits_startTrie {ipVersion : Nat} {address : IpAddr} {t : BitTrie Nat}
    (haddress : Placed ipVersion address)
    (h : BitTrie.Fits (if ipVersion = 6 then 128 else 32) 0 t) :
    BitTrie.Fits (address.octets.length * 8) 0 (startTrie ipVersion address t) := by
  rcases haddress with ⟨rfl, hfamily⟩ | rfl
  · cases address with
    | v4 addr => simpa [startTrie, IpAddr.octets] using h
    | v6 addr => cases hfamily
  · cases address with
    | v4 addr =>
      rw [startTrie, if_pos ⟨rfl, rfl⟩]
      rw [if_pos rfl] at h
      have hbelow := h.descend (fun _ => false) (show 0 + 96 ≤ 128 by omega)
      have hshifted : BitTrie.Fits 32 0 (t.descend (fun _ => false) 96 0) :=
        BitTrie.Fits.shift 96 hbelow
      simpa [IpAddr.octets] using hshifted
    | v6 addr => simpa [startTrie, IpAddr.isIpv6, IpAddr.octets] using h

theorem startNode_describes {r : Reader} {ptr : Nat → Nat} {t : BitTrie Nat} {address : IpAddr}
    (haddress : Placed r.metadata.ipVersion address) (hstart : r.findIpv4Start = .ok r.ipv4Start)
    (h : r.Describes ptr t 0) :
    r.Describes ptr (startTrie r.metadata.ipVersion address t)
      (r.startNode (address.octets.length * 8)) := by
  rw [Reader.findIpv4Start] at hstart
  rcases haddress with ⟨hversion, hfamily⟩ | hversion
  · cases address with
    | v4 addr =>
      rw [if_pos (by omega)] at hstart
      rw [startTrie, if_neg (by omega), Reader.startNode, ← Outcome.ok.inj hstart]
      simpa [IpAddr.octets] using h
    | v6 addr => cases hfamily
  · cases address with
    | v4 addr =>
      rw [if_neg (by omega)] at hstart
      obtain ⟨value, hwalk, hvalue⟩ := Reader.zeroWalk_describes 96 0 h
      rw [hstart] at hwalk
      rw [startTrie, if_pos ⟨hversion, rfl⟩, Reader.startNode, Outcome.ok.inj hwalk]
      simpa [IpAddr.octets] using hvalue
    | v6 addr =>
      simpa [startTrie, Reader.startNode, IpAddr.isIpv6, IpAddr.octets] using h

theorem Writer.Holds.fits {w : Writer} {stored : List (IpNetwork × Bytes)} (h : w.Holds stored) :
    BitTrie.Fits (if w.ipVersion = 6 then 128 else 32) 0 (ofNode w.root).trie := by
  obtain ⟨keyed, hkeyed, htree⟩ := h.tree
  rw [htree]
  refine BitTrie.Fits.insertAll ?_ ?_
  · exact .inr ⟨by split <;> omega, trivial, trivial⟩
  · intro i hi
    obtain ⟨k, hk, rfl⟩ := List.mem_map.mp hi
    have hmem : (k.1, w.dataMap.lookup k.2) ∈ stored.map fun s => (s.1, some s.2) := by
      rw [← hkeyed]
      exact List.mem_map_of_mem hk
    obtain ⟨s, hs, hsk⟩ := List.mem_map.mp hmem
    have hplaced := h.placed s hs
    rw [(Prod.mk.inj hsk).1] at hplaced
    have hle := prefixLen_le_length (treeNetwork w.ipVersion k.1)
    have hfamily := isIpv6_treeNetwork hplaced
    simp only [insertion]
    cases hnetwork : (treeNetwork w.ipVersion k.1).network with
    | v4 addr =>
      rw [hnetwork] at hle hfamily
      have hother : w.ipVersion ≠ 6 := by simpa [IpAddr.isIpv6] using hfamily
      simpa [hother, IpAddr.octets] using hle
    | v6 addr =>
      rw [hnetwork] at hle hfamily
      have hsix : w.ipVersion = 6 := by simpa [IpAddr.isIpv6] using hfamily
      simpa [hsix, IpAddr.octets] using hle

theorem Writer.Holds.find {w : Writer} {stored : List (IpNetwork × Bytes)} (h : w.Holds stored)
    {address : IpAddr} (haddress : Placed w.ipVersion address) :
    match BitTrie.find (bitAt (treeAddress w.ipVersion address).octets) 0 (ofNode w.root).trie with
    | none => lastContaining w.ipVersion stored address = none
    | some key => ∃ encoded, w.dataMap.lookup key = some encoded ∧
        lastContaining w.ipVersion stored address = some encoded := by
  obtain ⟨keyed, hkeyed, htree⟩ := h.tree
  have hkeys : (keyed.map (insertion w.ipVersion)).map
      (fun i => (i.1, i.2.1, w.dataMap.lookup i.2.2)) =
      (stored.map (insertion w.ipVersion)).map fun i => (i.1, i.2.1, some i.2.2) := by
    have hmap := congrArg (List.map (insertion w.ipVersion)) hkeyed
    simpa only [List.map_map, Function.comp_def, insertion] using hmap
  have hlast :=
    congrArg (BitTrie.lastCovering (bitAt (treeAddress w.ipVersion address).octets)) hkeys
  rw [BitTrie.lastCovering_map (fun key => w.dataMap.lookup key), BitTrie.lastCovering_map some,
    lastCovering_insertion h.placed haddress] at hlast
  have hempty (path : Nat → Bool) :
      BitTrie.find path 0 (.node .empty .empty : BitTrie Nat) = none := by
    rw [BitTrie.find]
    split <;> rfl
  rw [htree, BitTrie.find_insertAll, hempty, Option.or_none]
  cases hkey : BitTrie.lastCovering (bitAt (treeAddress w.ipVersion address).octets)
      (keyed.map (insertion w.ipVersion)) with
  | none =>
    rw [hkey] at hlast
    exact Option.map_eq_none_iff.mp hlast.symm
  | some key =>
    rw [hkey] at hlast
    obtain ⟨encoded, hencoded, hlookup⟩ := Option.map_eq_some_iff.mp hlast.symm
    exact ⟨encoded, hlookup.symm, hencoded⟩

/-! ## Locating -/

theorem resolveDataPointer_lookup {r : Reader} {entries : List (Nat × Bytes)} {key : Nat}
    {encoded tree rest : Bytes}
    (hbuf : r.buf = tree ++ (DATA_SECTION_SEPARATOR ++
      ((Writer.dataSection entries).2 ++ (METADATA_START_MARKER ++ rest))))
    (hbase : r.pointerBase = tree.length + 16) (hkey : entries.lookup key = some encoded) :
    ∃ record after,
      r.resolveDataPointer (dataPointer r.metadata.nodeCount (Writer.dataSection entries).1 key) =
        .ok record ∧
      (r.buf.drop r.pointerBase).drop record = encoded ++ after := by
  have hspec := dataSection_lookup entries key
  rw [hkey] at hspec
  obtain ⟨offset, after, hoffset, hle, hdrop⟩ := hspec
  have hseparator : (tree ++ DATA_SECTION_SEPARATOR).length = tree.length + 16 := by
    rw [List.length_append]
    rfl
  have hsection : r.buf.drop r.pointerBase =
      (Writer.dataSection entries).2 ++ (METADATA_START_MARKER ++ rest) := by
    rw [hbuf, hbase, ← List.append_assoc, List.drop_left' hseparator]
  have hlength := congrArg List.length hbuf
  simp only [List.length_append] at hlength
  have hmarker : METADATA_START_MARKER.length = 14 := rfl
  have hzeros : DATA_SECTION_SEPARATOR.length = 16 := rfl
  refine ⟨offset, after ++ (METADATA_START_MARKER ++ rest), ?_, ?_⟩
  · rw [dataPointer, hoffset, Option.getD_some, Reader.resolveDataPointer]
    simp only
    rw [if_neg (by omega), if_neg (by omega), if_pos (by omega)]
    congr 1
    omega
  · rw [hsection, List.drop_append_of_le_length hle, hdrop, List.append_assoc]

/-- The address of a family is looked up as the last network that contains it says.  The prefix
that is reported names a network whose addresses all have the same payload. -/
theorem locate_of_writeTo {T : Type} (hash : Bytes → Nat)
    (encodeSerialize : T → Except SerError Bytes)
    {opts : WriterOptions} {w w' : Writer} {calls : List (Call T)} {size : Nat} {out : Bytes}
    {limits : DecodeLimits} {r : Reader} (hnew : Writer.new opts = .ok w)
    (hwrite : (w.run hash encodeSerialize calls).writeTo [] = (.ok (size, w'), out))
    (hopen : Reader.fromSourceWithOptions out limits = .ok r)
    (hnodes : r.metadata.nodeCount = w'.nodeCount)
    (hrecord : r.metadata.recordSize = opts.recordSize)
    (hversion : r.metadata.ipVersion = opts.ipVersion)
    {address : IpAddr} (haddress : Placed opts.ipVersion address) :
    match lastContaining opts.ipVersion (stored encodeSerialize opts.ipVersion calls) address with
    | none => r.locate address = .err (.addressNotFoundError address)
    | some encoded => ∃ record after network,
        r.locate address = .ok (record, network.prefixLen) ∧
        (r.buf.drop r.pointerBase).drop record = encoded ++ after ∧
        IpNetwork.new address network.prefixLen = some network ∧
        ∀ other, network.contains other →
          lastContaining opts.ipVersion (stored encodeSerialize opts.ipVersion calls) other =
            some encoded := by
  obtain ⟨hholds, hw, hwsize, hsizes⟩ := Writer.new_holds hnew
  obtain ⟨hrun, hkept⟩ := hholds.run hash encodeSerialize calls
  have hrunVersion := hkept.version.trans hw
  rw [List.nil_append, hw] at hrun
  rw [← hkept.size] at hsizes
  obtain ⟨tree, rest, hout, hlength, hdescribes⟩ := writeTo_describes hsizes hwrite
  obtain ⟨hbuf, hbase, hstart⟩ := Reader.fromSource_spec hopen
  have hsame : r.metadata.recordSize = (w.run hash encodeSerialize calls).recordSize :=
    hrecord.trans (hkept.size.trans hwsize).symm
  rw [hnodes, hsame, ← hlength] at hbase
  have htree := hdescribes r hbuf hnodes hsame
  have hplaced : Placed r.metadata.ipVersion address := by rwa [hversion]
  have hfits := hrun.fits
  rw [hrunVersion, ← hversion] at hfits
  obtain ⟨prefixLen, hprefix, hfound, hagree⟩ := Reader.findAddressInTree_describes
    (by rwa [hsame]) (startNode_describes hplaced hstart htree) (fits_startTrie hplaced hfits)
  have hfamily : ¬(r.metadata.ipVersion = 4 ∧ address.isIpv6 = true) := by
    rintro ⟨hfour, hsix⟩
    rcases hplaced with ⟨-, h⟩ | h
    · rw [hsix] at h
      cases h
    · omega
  have hfind := hrun.find (by rwa [hrunVersion] : Placed _ address)
  rw [hrunVersion] at hfind
  rw [find_startTrie, hversion] at hfound
  cases hkey : BitTrie.find (bitAt (treeAddress opts.ipVersion address).octets) 0
      (ofNode (w.run hash encodeSerialize calls).root).trie with
  | none =>
    rw [hkey] at hfind hfound
    rw [hfind]
    simp only
    rw [Reader.locate, if_neg hfamily, hfound]
    rfl
  | some key =>
    rw [hkey] at hfind hfound
    obtain ⟨encoded, hlookup, hlast⟩ := hfind
    obtain ⟨record, after, hresolve, hpayload⟩ :=
      resolveDataPointer_lookup (hbuf.trans hout) hbase hlookup
    obtain ⟨network, hnetwork, rfl, hcontains⟩ := network_of_prefix hprefix
    rw [hlast]
    refine ⟨record, after, network, ?_, hpayload, hnetwork, fun other hother => ?_⟩
    · have hpointer : dataPointer w'.nodeCount
          (Writer.dataSection (w.run hash encodeSerialize calls).dataMap).1 key ≠ 0 := by
        rw [dataPointer]
        omega
      rw [hnodes] at hresolve
      rw [Reader.locate, if_neg hfamily, hfound]
      simp only [Option.elim_some, Outcome.ok_bind, if_neg hpointer, hresolve]
      rfl
    · obtain ⟨hkind, hsamePrefix⟩ := (hcontains other).mp hother
      have hplacedOther : Placed opts.ipVersion other := by
        rcases haddress with ⟨hfour, h⟩ | hsix
        · exact .inl ⟨hfour, hkind.trans h⟩
        · exact .inr hsix
      have hstarts : startTrie r.metadata.ipVersion other
          (ofNode (w.run hash encodeSerialize calls).root).trie =
          startTrie r.metadata.ipVersion address
            (ofNode (w.run hash encodeSerialize calls).root).trie := by
        rw [startTrie, startTrie, hkind]
      have hequal := hagree _ hsamePrefix
      rw [← hstarts, find_startTrie, hstarts, find_startTrie, hversion, hkey] at hequal
      have hother' := hrun.find (by rwa [hrunVersion] : Placed _ other)
      rw [hrunVersion, hequal] at hother'
      obtain ⟨encoded', hlookup', hlast'⟩ := hother'
      rw [hlookup] at hlookup'
      rw [hlast', ← Option.some.inj hlookup']

/-- `10.0.0.0/8` in a small database of version 4. -/
def smallOptions : WriterOptions := ⟨4, 24, "small", [], [], 0⟩

def smallCalls : List (Call Empty) :=
  [.insertValue (.v4 ⟨0x0A000000, 8, by decide⟩) (.bool true)]

def smallWriter : Writer :=
  ⟨Node.new, [], fun _ => [], 0, 4, 24, "small", [], [], 0, 1⟩

theorem locate_of_writeTo_small : ∃ w' size out r record after prefixLen,
    (smallWriter.run (fun _ => 0) (fun e => nomatch e) smallCalls).writeTo [] =
      (.ok (size, w'), out) ∧
    Reader.fromSourceWithOptions out {} = .ok r ∧
    r.locate (.v4 0x0A010203) = .ok (record, prefixLen) ∧
    (r.buf.drop r.pointerBase).drop record = [1, 7] ++ after := by
  have hopens :
    (match (smallWriter.run (fun _ => 0) (fun e => nomatch e) smallCalls).writeTo [] with
    | (.ok (_, w'), out) =>
      match Reader.fromSourceWithOptions out {} with
      | .ok r => decide (r.metadata.nodeCount = w'.nodeCount ∧ r.metadata.recordSize = 24 ∧
          r.metadata.ipVersion = 4)
      | _ => false
    | _ => false) = true := by
    decide +kernel
  split at hopens
  · next size w' out hwrite =>
    split at hopens
    · next r hopen =>
      obtain ⟨hnodes, hrecord, hversion⟩ := of_decide_eq_true hopens
      have hlocate := locate_of_writeTo (fun _ => 0) (fun e : Empty => nomatch e)
        (show Writer.new smallOptions = .ok smallWriter by rfl) hwrite hopen hnodes hrecord
        hversion (show Placed smallOptions.ipVersion (.v4 0x0A010203) from .inl ⟨rfl, rfl⟩)
      have hlast : lastContaining smallOptions.ipVersion
          (stored (fun e : Empty => nomatch e) smallOptions.ipVersion smallCalls)
          (.v4 0x0A010203) = some [1, 7] := by
        decide +kernel
      rw [hlast] at hlocate
      obtain ⟨record, after, network, hfound, hpayload, -⟩ := hlocate
      exact ⟨w', size, out, r, record, after, _, hwrite, hopen, hfound, hpayload⟩
    · cases hopens
  · cases hopens

end Stdx.MaxMindDb
