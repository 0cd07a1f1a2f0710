import Stdx.Foundation.BitTrie
import Stdx.MaxMindDb.Codec
import Stdx.MaxMindDb.Reader

/-!
# The search tree as a trie

The tree of the writer is a trie from address bits to data keys: its insertions
are those of the trie, and numbering its nodes does not change it.  The octets
it is written as describe the same trie to the reader.
-/

namespace Stdx.MaxMindDb

open Stdx.Foundation Stdx.Ipnetwork

/-! ## The tree of the writer -/

namespace ChildRecord

def trie : ChildRecord → BitTrie Nat
  | empty => .empty
  | data key => .leaf key
  | node _ zero one => .node zero.trie one.trie

theorem trie_ofNode (n : Node) : (ofNode n).trie = .node n.zero.trie n.one.trie := rfl

theorem branch_subtree (record : ChildRecord) (bit : Bool) :
    (ofNode record.subtree).trie.branch bit = record.trie.branch bit := by
  cases record <;> cases bit <;> rfl

end ChildRecord

open ChildRecord (ofNode Write writeAll)

theorem BitTrie.insert_congr {α : Type} (path : Nat → Bool) (value : α) (rest depth : Nat)
    {t t' : BitTrie α} (h : ∀ bit, t.branch bit = t'.branch bit) :
    BitTrie.insert path value rest depth t = BitTrie.insert path value rest depth t' := by
  cases rest with
  | zero => rfl
  | succ rest => rw [BitTrie.insert, BitTrie.insert, h, h]

theorem Node.trie_insert (ip : Bytes) (key rest depth : Nat) (n : Node) :
    (ofNode (n.insert ip key rest depth)).trie =
      BitTrie.insert (bitAt ip) key rest depth (ofNode n).trie := by
  induction rest generalizing depth n with
  | zero => rfl
  | succ rest ih =>
    rw [insert, BitTrie.insert]
    split
    · rw [ChildRecord.trie_ofNode]
      simp only [ih]
      rw [BitTrie.insert_congr _ _ _ _ n.one.branch_subtree]
      rfl
    · rw [ChildRecord.trie_ofNode]
      simp only [ih]
      rw [BitTrie.insert_congr _ _ _ _ n.zero.branch_subtree]
      rfl

/-! ## Numbers -/

namespace ChildRecord

def size : ChildRecord → Nat
  | node _ zero one => 1 + zero.size + one.size
  | _ => 0

/-- The nodes are numbered from `n` on in preorder. -/
def Numbered : Nat → ChildRecord → Prop
  | n, node nodeNum zero one =>
    nodeNum = some n ∧ Numbered (n + 1) zero ∧ Numbered (n + 1 + zero.size) one
  | _, _ => True

theorem finalize_spec (record : ChildRecord) (n : Nat) :
    (record.finalize n).1.trie = record.trie ∧ (record.finalize n).1.Numbered n ∧
      (record.finalize n).1.size = record.size ∧ (record.finalize n).2 = n + record.size := by
  induction record generalizing n with
  | empty => simp [finalize, Numbered, size]
  | data key => simp [finalize, Numbered, size]
  | node nodeNum zero one ihzero ihone =>
    obtain ⟨htrie, hnumbered, hsize, hnext⟩ := ihzero (n + 1)
    obtain ⟨htrie', hnumbered', hsize', hnext'⟩ := ihone (zero.finalize (n + 1)).2
    refine ⟨?_, ⟨rfl, hnumbered, ?_⟩, ?_, ?_⟩
    · simp only [finalize, trie, htrie, htrie']
    · rw [hsize, ← hnext]
      exact hnumbered'
    · simp only [finalize, size, hsize, hsize']
    · simp only [finalize, size]
      rw [hnext', hnext]
      omega

end ChildRecord

/-! ## Packed records -/

/-- The nodes reachable from `value` form the trie, with the record of `ptr k` for a leaf `k`. -/
def Reader.Describes (r : Reader) (ptr : Nat → Nat) : BitTrie Nat → Nat → Prop
  | .empty, value => value = r.metadata.nodeCount
  | .leaf key, value => value = ptr key ∧ r.metadata.nodeCount < ptr key
  | .node zero one, value => value < r.metadata.nodeCount ∧ ∃ left right,
      r.readNode value 0 = .ok left ∧ r.readNode value 1 = .ok right ∧
        r.Describes ptr zero left ∧ r.Describes ptr one right

theorem usizeAt_drop {buf xs rest : Bytes} {offset : Nat} (base : Nat) (hxs : 0 < xs.length)
    (h : buf.drop offset = xs ++ rest) :
    usizeAt buf base offset xs.length = .ok (toUsize base xs) := by
  have hlength := congrArg List.length h
  rw [List.length_drop, List.length_append] at hlength
  rw [usizeAt, if_pos (by omega), h, List.take_left]

theorem octetAt_eq (v shift : Nat) : ChildRecord.octetAt v shift = UInt8.ofNat (v >>> shift) := by
  rw [ChildRecord.octetAt, ofNat_low]

theorem octetAt_three (v : Nat) : [ChildRecord.octetAt v 16, ChildRecord.octetAt v 8,
    ChildRecord.octetAt v 0] = pushOctets v 3 := by
  simp [octetAt_eq, pushOctets, List.range_succ]

theorem octetAt_four (v : Nat) : [ChildRecord.octetAt v 24, ChildRecord.octetAt v 16,
    ChildRecord.octetAt v 8, ChildRecord.octetAt v 0] = pushOctets v 4 := by
  simp [octetAt_eq, pushOctets, List.range_succ]

/-- The octet that two 28-bit records share gives each its four high bits back. -/
theorem shared_octet : ∀ a b : Fin 16,
    (((0xF0 : UInt8) &&& UInt8.ofNat ((a.val <<< 4) ||| b.val)) >>> 4).toNat = a.val ∧
      (UInt8.ofNat ((a.val <<< 4) ||| b.val) &&& 0x0F).toNat = b.val := by
  decide

theorem usizeAt_pushOctets {buf rest : Bytes} {offset v : Nat} (base : Nat) {size : Nat}
    (hsize : 0 < size) (h : buf.drop offset = pushOctets v size ++ rest) :
    usizeAt buf base offset size = .ok (base * 256 ^ size + v % 256 ^ size) := by
  have hread := usizeAt_drop base (by rw [length_pushOctets]; exact hsize) h
  rwa [length_pushOctets, toUsize_pushOctets] at hread

theorem readNodeSized_24 {buf rest : Bytes} {left right n : Nat} (hleft : left < 2 ^ 24)
    (hright : right < 2 ^ 24)
    (h : buf.drop (n * 6) = pushOctets left 3 ++ (pushOctets right 3 ++ rest)) :
    readNodeSized buf 24 n 0 = .ok left ∧ readNodeSized buf 24 n 1 = .ok right := by
  have h' : buf.drop (n * 6 + 3) = pushOctets right 3 ++ rest := by
    rw [← List.drop_drop, h, List.drop_left' (length_pushOctets left 3)]
  have hbase : n * 24 / 4 = n * 6 := by omega
  simp only [readNodeSized, hbase, if_true, Nat.zero_mul, Nat.one_mul, Nat.add_zero]
  rw [usizeAt_pushOctets 0 (by decide) h, usizeAt_pushOctets 0 (by decide) h']
  constructor <;> congr 1 <;> omega

theorem readNodeSized_32 {buf rest : Bytes} {left right n : Nat} (hleft : left < 2 ^ 32)
    (hright : right < 2 ^ 32)
    (h : buf.drop (n * 8) = pushOctets left 4 ++ (pushOctets right 4 ++ rest)) :
    readNodeSized buf 32 n 0 = .ok left ∧ readNodeSized buf 32 n 1 = .ok right := by
  have h' : buf.drop (n * 8 + 4) = pushOctets right 4 ++ rest := by
    rw [← List.drop_drop, h, List.drop_left' (length_pushOctets left 4)]
  have hbase : n * 32 / 4 = n * 8 := by omega
  simp only [readNodeSized, hbase, Nat.zero_mul, Nat.one_mul, Nat.add_zero,
    show ((32 : Nat) = 24) = False by decide, show ((32 : Nat) = 28) = False by decide, if_false]
  rw [usizeAt_pushOctets 0 (by decide) h, usizeAt_pushOctets 0 (by decide) h']
  constructor <;> congr 1 <;> omega

theorem readNodeSized_28 {buf rest : Bytes} {left right n : Nat} (hleft : left < 2 ^ 28)
    (hright : right < 2 ^ 28)
    (h : buf.drop (n * 7) = pushOctets left 3 ++
      (ChildRecord.sharedOctet left right :: (pushOctets right 3 ++ rest))) :
    readNodeSized buf 28 n 0 = .ok left ∧ readNodeSized buf 28 n 1 = .ok right := by
  have hhigh : ∀ v, v < 2 ^ 28 → (v >>> 24) &&& 0x0F = v / 2 ^ 24 := by
    intro v hv
    rw [show 0x0F = 2 ^ 4 - 1 from rfl, Nat.and_two_pow_sub_one_eq_mod,
      Nat.shiftRight_eq_div_pow]
    omega
  rw [ChildRecord.sharedOctet, hhigh left hleft, hhigh right hright] at h
  obtain ⟨hfirst, hsecond⟩ := shared_octet ⟨left / 2 ^ 24, by omega⟩ ⟨right / 2 ^ 24, by omega⟩
  simp only at hfirst hsecond
  generalize UInt8.ofNat ((left / 2 ^ 24) <<< 4 ||| right / 2 ^ 24) = shared at h hfirst hsecond
  have hmid : buf.drop (n * 7 + 3) = shared :: (pushOctets right 3 ++ rest) := by
    rw [← List.drop_drop, h, List.drop_left' (length_pushOctets left 3)]
  have h' : buf.drop (n * 7 + 4) = pushOctets right 3 ++ rest := by
    rw [show n * 7 + 4 = n * 7 + 3 + 1 from rfl, ← List.drop_drop, hmid, List.drop_succ_cons,
      List.drop_zero]
  have hinside : n * 7 + 3 < buf.length := by
    have := congrArg List.length hmid
    rw [List.length_drop, List.length_cons] at this
    omega
  have hshared : buf.getD (n * 7 + 3) 0 = shared := by
    have := congrArg List.head? hmid
    rw [List.head?_drop, List.head?_cons] at this
    rw [List.getD_eq_getElem?_getD, this]
    rfl
  have hbase : n * 28 / 4 = n * 7 := by omega
  have hin : ¬ n * 7 + 3 ≥ buf.length := by omega
  simp only [readNodeSized, hbase, Nat.zero_mul, Nat.one_mul, Nat.add_zero, hshared, if_neg hin,
    show ((28 : Nat) = 24) = False by decide, if_false, if_true, ne_eq, not_true, not_false_eq_true,
    one_ne_zero, hfirst, hsecond]
  rw [usizeAt_pushOctets _ (by decide) h, usizeAt_pushOctets _ (by decide) h']
  constructor <;> congr 1 <;> omega

theorem readNode_packed {recordSize left right : Nat} {out out' : Bytes}
    (hpack : ChildRecord.packRecords recordSize left right out = (.ok (), out'))
    (hleft : left < 1 <<< recordSize) (hright : right < 1 <<< recordSize) :
    ∃ octets, out' = out ++ octets ∧ octets.length = recordSize / 4 ∧
      ∀ (r : Reader) (n : Nat) (rest : Bytes), r.metadata.recordSize = recordSize →
        r.buf.drop (n * (recordSize / 4)) = octets ++ rest →
        r.readNode n 0 = .ok left ∧ r.readNode n 1 = .ok right := by
  rw [Nat.one_shiftLeft] at hleft hright
  unfold ChildRecord.packRecords at hpack
  split at hpack
  · obtain ⟨-, rfl⟩ := Prod.mk.inj hpack
    refine ⟨pushOctets left 3 ++ pushOctets right 3, ?_, by simp [length_pushOctets], ?_⟩
    · rw [← octetAt_three, ← octetAt_three]
      rfl
    · intro r n rest hsize hdrop
      rw [List.append_assoc] at hdrop
      simp only [Reader.readNode, hsize]
      exact readNodeSized_24 hleft hright hdrop
  · obtain ⟨-, rfl⟩ := Prod.mk.inj hpack
    refine ⟨pushOctets left 3 ++ (ChildRecord.sharedOctet left right :: pushOctets right 3), ?_,
      by simp [length_pushOctets], ?_⟩
    · rw [← octetAt_three, ← octetAt_three]
      rfl
    · intro r n rest hsize hdrop
      rw [List.append_assoc, List.cons_append] at hdrop
      simp only [Reader.readNode, hsize]
      exact readNodeSized_28 hleft hright hdrop
  · obtain ⟨-, rfl⟩ := Prod.mk.inj hpack
    refine ⟨pushOctets left 4 ++ pushOctets right 4, ?_, by simp [length_pushOctets], ?_⟩
    · rw [← octetAt_four, ← octetAt_four]
      rfl
    · intro r n rest hsize hdrop
      rw [List.append_assoc] at hdrop
      simp only [Reader.readNode, hsize]
      exact readNodeSized_32 hleft hright hdrop
  · simp [Checked.fail] at hpack

/-! ## The written tree -/

def dataPointer (nodeCount : Nat) (dataOffsets : List (Nat × Nat)) (key : Nat) : Nat :=
  nodeCount + 16 + (dataOffsets.lookup key).getD 0

namespace ChildRecord

def value (nodeCount : Nat) (dataOffsets : List (Nat × Nat)) (n : Nat) : ChildRecord → Nat
  | empty => nodeCount
  | data key => dataPointer nodeCount dataOffsets key
  | node _ _ _ => n

theorem resolveRecordValue_eq_ok {nodeCount n v : Nat} {dataOffsets : List (Nat × Nat)}
    {record : ChildRecord} {out out' : Bytes} (hnumbered : record.Numbered n)
    (h : record.resolveRecordValue nodeCount dataOffsets out = (.ok v, out')) :
    v = record.value nodeCount dataOffsets n ∧ out' = out := by
  cases record with
  | empty =>
    obtain ⟨hv, rfl⟩ := Prod.mk.inj h
    exact ⟨(Outcome.ok.inj hv).symm, rfl⟩
  | data key =>
    cases hlookup : dataOffsets.lookup key with
    | none => simp [resolveRecordValue, hlookup] at h
    | some offset =>
      simp only [resolveRecordValue, hlookup] at h
      obtain ⟨hv, rfl⟩ := Prod.mk.inj h
      rw [value, dataPointer, hlookup]
      exact ⟨(Outcome.ok.inj hv).symm, rfl⟩
  | node nodeNum zero one =>
    obtain ⟨rfl, -, -⟩ := hnumbered
    obtain ⟨hv, rfl⟩ := Prod.mk.inj h
    exact ⟨(Outcome.ok.inj hv).symm, rfl⟩

theorem writeNode_describes {nodeCount recordSize : Nat} {dataOffsets : List (Nat × Nat)}
    (record : ChildRecord) {n : Nat} {out out' : Bytes} (hnumbered : record.Numbered n)
    (hcount : n + record.size ≤ nodeCount)
    (h : record.writeNode nodeCount dataOffsets recordSize out = (.ok (), out')) :
    ∃ octets, out' = out ++ octets ∧ octets.length = record.size * (recordSize / 4) ∧
      ∀ (r : Reader) (rest : Bytes), r.metadata.nodeCount = nodeCount →
        r.metadata.recordSize = recordSize →
        r.buf.drop (n * (recordSize / 4)) = octets ++ rest →
        r.Describes (dataPointer nodeCount dataOffsets) record.trie
          (record.value nodeCount dataOffsets n) := by
  induction record generalizing n out out' with
  | empty =>
    obtain ⟨-, rfl⟩ := Prod.mk.inj h
    refine ⟨[], by simp, by simp [size], fun r rest hnode _ _ => ?_⟩
    exact hnode.symm
  | data key =>
    obtain ⟨-, rfl⟩ := Prod.mk.inj h
    refine ⟨[], by simp, by simp [size], fun r rest hnode _ _ => ⟨rfl, ?_⟩⟩
    rw [hnode, dataPointer]
    omega
  | node nodeNum zero one ihzero ihone =>
    obtain ⟨-, hzero, hone⟩ := hnumbered
    rw [size] at hcount
    rw [writeNode] at h
    obtain ⟨left, mid, hresolve₀, hafter₀⟩ := Checked.bind_eq_ok h
    obtain ⟨hleft, rfl⟩ := resolveRecordValue_eq_ok hzero hresolve₀
    obtain ⟨right, mid', hresolve₁, hafter₁⟩ := Checked.bind_eq_ok hafter₀
    obtain ⟨hright, rfl⟩ := resolveRecordValue_eq_ok hone hresolve₁
    simp only at hafter₁
    split at hafter₁
    · simp at hafter₁
    · next hmax =>
      obtain ⟨_, out₁, hpack, hwrites⟩ := Checked.bind_eq_ok hafter₁
      obtain ⟨_, out₂, hwriteZero, hwriteOne⟩ := Checked.bind_eq_ok hwrites
      obtain ⟨octets, rfl, hlength, hread⟩ := readNode_packed hpack (by omega) (by omega)
      obtain ⟨octets₀, rfl, hlength₀, hread₀⟩ := ihzero hzero (by omega) hwriteZero
      obtain ⟨octets₁, rfl, hlength₁, hread₁⟩ := ihone hone (by omega) hwriteOne
      refine ⟨octets ++ (octets₀ ++ octets₁), by simp, ?_, ?_⟩
      · rw [List.length_append, List.length_append, hlength, hlength₀, hlength₁, size]
        ring
      · intro r rest hnode hsize hdrop
        rw [List.append_assoc, List.append_assoc] at hdrop
        have hdrop₀ : r.buf.drop ((n + 1) * (recordSize / 4)) =
            octets₀ ++ (octets₁ ++ rest) := by
          rw [Nat.add_mul, Nat.one_mul, ← List.drop_drop, hdrop, List.drop_left' hlength]
        have hdrop₁ : r.buf.drop ((n + 1 + zero.size) * (recordSize / 4)) =
            octets₁ ++ rest := by
          rw [Nat.add_mul, ← List.drop_drop, hdrop₀, List.drop_left' hlength₀]
        obtain ⟨hr₀, hr₁⟩ := hread r n _ hsize hdrop
        have hbelow₀ := hread₀ r _ hnode hsize hdrop₀
        have hbelow₁ := hread₁ r _ hnode hsize hdrop₁
        rw [← hleft] at hbelow₀
        rw [← hright] at hbelow₁
        refine ⟨?_, left, right, hr₀, hr₁, hbelow₀, hbelow₁⟩
        rw [hnode, value]
        omega

end ChildRecord

/-! ## Walks of the reader -/

namespace Reader

variable {r : Reader} {ptr : Nat → Nat}

theorem Describes.ge_nodeCount {t : BitTrie Nat} {value : Nat} (h : r.Describes ptr t value)
    (hleaf : ∀ zero one, t ≠ .node zero one) : value ≥ r.metadata.nodeCount := by
  cases t with
  | empty => exact Nat.le_of_eq h.symm
  | leaf key =>
    obtain ⟨rfl, hlt⟩ := h
    exact Nat.le_of_lt hlt
  | node zero one => exact absurd rfl (hleaf zero one)

theorem Describes.readNode {zero one : BitTrie Nat} {value : Nat}
    (h : r.Describes ptr (.node zero one) value) (bit : Bool) :
    value < r.metadata.nodeCount ∧ ∃ child, r.readNode value bit.toNat = .ok child ∧
      r.Describes ptr ((BitTrie.node zero one).branch bit) child := by
  obtain ⟨hlt, left, right, hleft, hright, hzero, hone⟩ := h
  cases bit
  · exact ⟨hlt, left, hleft, hzero⟩
  · exact ⟨hlt, right, hright, hone⟩

theorem zeroWalk_describes (turns depth : Nat) {t : BitTrie Nat} {value : Nat}
    (h : r.Describes ptr t value) : ∃ value', r.zeroWalk turns value = .ok value' ∧
      r.Describes ptr (t.descend (fun _ => false) turns depth) value' := by
  induction turns generalizing depth t value with
  | zero => exact ⟨value, rfl, h⟩
  | succ turns ih =>
    cases t with
    | node zero one =>
      obtain ⟨hlt, child, hread, hchild⟩ := h.readNode false
      obtain ⟨value', hwalk, hvalue'⟩ := ih (depth + 1) hchild
      refine ⟨value', ?_, hvalue'⟩
      rw [zeroWalk, if_neg (by omega)]
      change r.readNode value 0 = _ at hread
      rw [hread, Outcome.ok_bind, hwalk]
    | empty =>
      have hge := h.ge_nodeCount (by simp)
      exact ⟨value, by rw [zeroWalk, if_pos hge], by rwa [BitTrie.descend_empty]⟩
    | leaf key =>
      have hge := h.ge_nodeCount (by simp)
      exact ⟨value, by rw [zeroWalk, if_pos hge], by rwa [BitTrie.descend_leaf]⟩

theorem addressWalk_describes (ip : Bytes) (left i : Nat) {t : BitTrie Nat} {value : Nat}
    (h : r.Describes ptr t value) : ∃ value' count, count ≤ left ∧
      r.addressWalk ip left i value = .ok (value', i + count) ∧
      r.Describes ptr (t.descend (bitAt ip) count i) value' ∧
      (count = left ∨ ∀ zero one, t.descend (bitAt ip) count i ≠ .node zero one) := by
  induction left generalizing i t value with
  | zero => exact ⟨value, 0, Nat.le_refl _, rfl, h, Or.inl rfl⟩
  | succ left ih =>
    cases t with
    | node zero one =>
      obtain ⟨hlt, child, hread, hchild⟩ := h.readNode (bitAt ip i)
      obtain ⟨value', count, hcount, hwalk, hvalue', hend⟩ := ih (i + 1) hchild
      refine ⟨value', count + 1, by omega, ?_, hvalue', ?_⟩
      · rw [addressWalk, if_neg (by omega), hread, Outcome.ok_bind, hwalk, Nat.add_assoc,
          Nat.add_comm 1]
      · exact hend.imp (by omega) id
    | empty =>
      have hge := h.ge_nodeCount (by simp)
      exact ⟨value, 0, Nat.zero_le _, by rw [addressWalk, if_pos hge]; rfl, h,
        Or.inr (by simp [BitTrie.descend])⟩
    | leaf key =>
      have hge := h.ge_nodeCount (by simp)
      exact ⟨value, 0, Nat.zero_le _, by rw [addressWalk, if_pos hge]; rfl, h,
        Or.inr (by simp [BitTrie.descend])⟩

theorem findAddressInTree_describes {ip : Bytes} {t : BitTrie Nat}
    (hsize : r.metadata.recordSize = 24 ∨ r.metadata.recordSize = 28 ∨
      r.metadata.recordSize = 32)
    (h : r.Describes ptr t (r.startNode (ip.length * 8)))
    (hfits : BitTrie.Fits (ip.length * 8) 0 t) :
    ∃ prefixLen, prefixLen ≤ ip.length * 8 ∧
      r.findAddressInTree ip = .ok ((BitTrie.find (bitAt ip) 0 t).elim 0 ptr, prefixLen) ∧
      ∀ q, BitTrie.Agree q (bitAt ip) 0 prefixLen →
        BitTrie.find q 0 t = BitTrie.find (bitAt ip) 0 t := by
  have hsized : r.findAddressInTree ip = r.findAddressInTreeSized ip := by
    rcases hsize with hsize | hsize | hsize <;> simp only [findAddressInTree, hsize]
  obtain ⟨value', count, hcount, hwalk, hvalue', hend⟩ :=
    addressWalk_describes ip (ip.length * 8) 0 h
  have hbelow := hfits.descend (bitAt ip) (show 0 + count ≤ ip.length * 8 by omega)
  rw [Nat.zero_add] at hwalk hbelow
  have hfind : ∀ q, BitTrie.Agree q (bitAt ip) 0 count → BitTrie.find q 0 t =
      BitTrie.find q count (t.descend (bitAt ip) count 0) := by
    intro q hq
    rw [← BitTrie.find_descend q count 0 t, BitTrie.descend_congr hq, Nat.zero_add]
  have hself := hfind (bitAt ip) fun _ _ _ => rfl
  refine ⟨count, hcount, ?_, ?_⟩
  · rw [hsized, findAddressInTreeSized, hwalk, Outcome.ok_bind, hself]
    cases hcase : t.descend (bitAt ip) count 0 with
    | empty =>
      rw [hcase] at hvalue'
      change value' = r.metadata.nodeCount at hvalue'
      simp only [if_pos hvalue']
      rfl
    | leaf key =>
      rw [hcase] at hvalue'
      obtain ⟨rfl, hlt⟩ := hvalue'
      simp only [if_neg (Nat.ne_of_gt hlt), if_pos hlt]
      rfl
    | node zero one =>
      rw [hcase] at hvalue' hbelow
      have hdeep : count = ip.length * 8 := hend.resolve_right fun h => h zero one hcase
      obtain ⟨-, key, rfl, rfl⟩ : count = ip.length * 8 ∧ _ :=
        hbelow.resolve_right fun h => by omega
      obtain ⟨hlt, child, hread, rfl, hkey⟩ := hvalue'.readNode false
      change r.readNode value' 0 = _ at hread
      simp only [if_neg (Nat.ne_of_lt hlt), if_neg (Nat.not_lt_of_gt hlt), hread,
        Outcome.ok_bind, if_pos hkey, BitTrie.find_same]
      rfl
  · intro q hq
    rw [hfind q hq, hself]
    cases hcase : t.descend (bitAt ip) count 0 with
    | empty => rfl
    | leaf key => rfl
    | node zero one =>
      rw [hcase] at hbelow
      have hdeep : count = ip.length * 8 := hend.resolve_right fun h => h zero one hcase
      obtain ⟨-, key, rfl, rfl⟩ : count = ip.length * 8 ∧ _ :=
        hbelow.resolve_right fun h => by omega
      rw [BitTrie.find_same, BitTrie.find_same]

end Reader

end Stdx.MaxMindDb
