import Stdx.Foundation.Octets

/-!
# IP addresses and networks

Addresses are held as their bits.  A network is an address and the number of
leading bits that matter; the constructors reject a longer prefix than the
address has bits, so that bound is a field here.
-/

namespace Stdx.Ipnetwork

open Stdx.Foundation

abbrev Ipv4Addr := BitVec 32

abbrev Ipv6Addr := BitVec 128

inductive IpAddr where
  | v4 (addr : Ipv4Addr)
  | v6 (addr : Ipv6Addr)
  deriving DecidableEq, Repr

structure Network (width : Nat) where
  addr : BitVec width
  prefixLen : Nat
  bounded : prefixLen ≤ width
  deriving DecidableEq, Repr

abbrev Ipv4Network := Network 32

abbrev Ipv6Network := Network 128

inductive IpNetwork where
  | v4 (network : Ipv4Network)
  | v6 (network : Ipv6Network)
  deriving DecidableEq, Repr

namespace Network

variable {width : Nat}

def new (addr : BitVec width) (prefixLen : Nat) : Option (Network width) :=
  if h : prefixLen ≤ width then some ⟨addr, prefixLen, h⟩ else none

def mask (n : Network width) : BitVec width :=
  if n.prefixLen = 0 then 0 else BitVec.allOnes width <<< (width - n.prefixLen)

def network (n : Network width) : BitVec width := n.addr &&& n.mask

/-- The same test as in the source for both widths; version 4 spells its mask differently. -/
def contains (n : Network width) (ip : BitVec width) : Bool := ip &&& n.mask == n.network

theorem getMsbD_mask (n : Network width) (i : Nat) :
    n.mask.getMsbD i = decide (i < n.prefixLen) := by
  have hbound := n.bounded
  rw [mask]
  split
  · next hzero => simp [hzero]
  · rw [BitVec.getMsbD_shiftLeft, BitVec.getMsbD_allOnes]
    congr 1
    simp only [eq_iff_iff]
    omega

theorem getMsbD_network (n : Network width) (i : Nat) :
    n.network.getMsbD i = (n.addr.getMsbD i && decide (i < n.prefixLen)) := by
  rw [network, BitVec.getMsbD_and, getMsbD_mask]

theorem contains_iff (n : Network width) (ip : BitVec width) :
    n.contains ip ↔ ∀ i, i < n.prefixLen → ip.getMsbD i = n.addr.getMsbD i := by
  rw [contains, beq_iff_eq, network]
  constructor
  · intro heq i hi
    have := congrArg (BitVec.getMsbD · i) heq
    simpa [BitVec.getMsbD_and, getMsbD_mask, hi] using this
  · intro hbits
    apply BitVec.eq_of_getMsbD_eq
    intro i hi
    rw [BitVec.getMsbD_and, BitVec.getMsbD_and, getMsbD_mask]
    by_cases hlt : i < n.prefixLen
    · rw [hbits i hlt]
    · simp [hlt]

end Network

namespace IpAddr

def octets : IpAddr → Bytes
  | v4 addr => fixedOctets 4 addr.toNat
  | v6 addr => fixedOctets 16 addr.toNat

def isIpv6 : IpAddr → Bool
  | v4 _ => false
  | v6 _ => true

end IpAddr

namespace IpNetwork

def new (ip : IpAddr) (prefixLen : Nat) : Option IpNetwork :=
  match ip with
  | .v4 addr => (Network.new addr prefixLen).map v4
  | .v6 addr => (Network.new addr prefixLen).map v6

def prefixLen : IpNetwork → Nat
  | v4 n => n.prefixLen
  | v6 n => n.prefixLen

def network : IpNetwork → IpAddr
  | v4 n => .v4 n.network
  | v6 n => .v6 n.network

def contains : IpNetwork → IpAddr → Bool
  | v4 n, .v4 ip => n.contains ip
  | v6 n, .v6 ip => n.contains ip
  | _, _ => false

end IpNetwork

/-! ## Bits of octets -/

/-- Bit `depth` of an octet string, counted from its first octet's high bit. -/
def bitAt (ip : Bytes) (depth : Nat) : Bool :=
  ((ip.getD (depth / 8) 0).toNat >>> (7 - depth % 8)) % 2 = 1

theorem bitAt_eq_testBit {ip : Bytes} {depth : Nat} (h : depth < 8 * ip.length) :
    bitAt ip depth = (beValue ip).testBit (8 * ip.length - 1 - depth) := by
  have hoctet := getD_toNat_beValue (o := ip) (i := ip.length - 1 - depth / 8) (by omega)
  rw [show ip.length - 1 - (ip.length - 1 - depth / 8) = depth / 8 by omega] at hoctet
  rw [bitAt, hoctet, Nat.testBit_eq_decide_div_mod_eq, Nat.shiftRight_eq_div_pow]
  congr 1
  have hpow : 256 ^ (ip.length - 1 - depth / 8) * 2 ^ (7 - depth % 8) =
      2 ^ (8 * ip.length - 1 - depth) := by
    rw [show (256 : Nat) = 2 ^ 8 by norm_num, ← pow_mul, ← pow_add]
    congr 1
    omega
  have hmod : ∀ m k, k < 8 → m % 256 / 2 ^ k % 2 = m / 2 ^ k % 2 := by
    intro m k hk
    interval_cases k <;> omega
  rw [hmod _ _ (by omega), Nat.div_div_eq_div_mul, hpow]

theorem bitAt_fixedOctets {n depth : Nat} (addr : BitVec (8 * n)) (h : depth < 8 * n) :
    bitAt (fixedOctets n addr.toNat) depth = addr.getMsbD depth := by
  have hlt : addr.toNat % 256 ^ n = addr.toNat := by
    rw [show (256 : Nat) = 2 ^ 8 by norm_num, ← pow_mul]
    exact Nat.mod_eq_of_lt addr.isLt
  rw [bitAt_eq_testBit (by simpa using h), fixedOctets_length, beValue_fixedOctets, hlt,
    BitVec.getMsbD, BitVec.getLsbD]
  simp [h]

end Stdx.Ipnetwork
