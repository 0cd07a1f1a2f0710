import Stdx.Foundation.Chunks
import Stdx.Foundation.LittleEndian
import Stdx.Foundation.Octets

/-!
# Fixed-width bit packing

A packing writes `m` values of `d` bits into `w` octets and reads them back.  The
code of such a packer is straight-line shifts and masks; what a development needs
of it is the round trip, which is part of the packing here.
-/

namespace Stdx.Foundation

theorem or_shiftLeft {a k : Nat} (b : Nat) (h : a < 2 ^ k) :
    a ||| b <<< k = a + b * 2 ^ k := by
  rw [Nat.or_comm, ← Nat.shiftLeft_add_eq_or_of_lt h, Nat.shiftLeft_eq, Nat.add_comm]

theorem and_mask2 (n : Nat) : n &&& 0b11 = n % 4 :=
  Nat.and_two_pow_sub_one_eq_mod n 2

theorem and_mask4 (n : Nat) : n &&& 0b1111 = n % 16 :=
  Nat.and_two_pow_sub_one_eq_mod n 4

theorem and_mask6 (n : Nat) : n &&& 0b111111 = n % 64 :=
  Nat.and_two_pow_sub_one_eq_mod n 6

theorem and_mask8 (n : Nat) : n &&& 0b11111111 = n % 256 :=
  Nat.and_two_pow_sub_one_eq_mod n 8

theorem octet_toNat_ofNat (n : Nat) : (UInt8.ofNat n).toNat = n % 256 :=
  UInt8.toNat_ofNat'

structure Packing (m w d : Nat) where
  pack : (Nat → Nat) → Bytes
  unpack : (Nat → UInt8) → List Nat
  length_pack : ∀ t, (pack t).length = w
  length_unpack : ∀ octet, (unpack octet).length = m
  reads : ∀ octet octet' : Nat → UInt8, (∀ k, k < w → octet k = octet' k) →
    unpack octet = unpack octet'
  round_trip : ∀ t, (∀ k, k < m → t k < 2 ^ d) → ∀ k, k < m →
    (unpack fun i => (pack t).getD i 0).getD k 0 % 2 ^ d = t k

namespace Packing

variable {m w d : Nat} (P : Packing m w d)

def packAll (count : Nat) (value : Nat → Nat) : Bytes :=
  ofChunks count fun j => P.pack fun k => value (m * j + k)

def unpackAll (count : Nat) (octet : Nat → UInt8) : List Nat :=
  ofChunks count fun j => P.unpack fun k => octet (w * j + k)

@[simp] theorem length_packAll (count : Nat) (value : Nat → Nat) :
    (P.packAll count value).length = w * count :=
  length_ofChunks fun _ _ => P.length_pack _

@[simp] theorem length_unpackAll (count : Nat) (octet : Nat → UInt8) :
    (P.unpackAll count octet).length = m * count :=
  length_ofChunks fun _ _ => P.length_unpack _

variable {P}

theorem unpackAll_packAll {count : Nat} {v : Nat → Nat}
    (hvalue : ∀ i, i < m * count → v i < 2 ^ d) {octet : Nat → UInt8}
    (hoctet : ∀ i, i < w * count → octet i = (P.packAll count v).getD i 0)
    {i : Nat} (hi : i < m * count) :
    (P.unpackAll count octet).getD i 0 % 2 ^ d = v i := by
  have hm : 0 < m := Nat.pos_of_ne_zero fun h => by simp [h] at hi
  refine forall_chunk (P := fun i =>
    (P.unpackAll count octet).getD i 0 % 2 ^ d = v i) hm (fun j k hj hk => ?_) hi
  have hfit : ∀ {n : Nat}, n * (j + 1) ≤ n * count := Nat.mul_le_mul_left _ hj
  have hchunk : P.unpack (fun k => octet (w * j + k)) =
      P.unpack fun k => (P.pack fun k => v (m * j + k)).getD k 0 := by
    refine P.reads _ _ fun k hk => ?_
    have hend := hfit (n := w)
    rw [Nat.mul_add] at hend
    rw [hoctet _ (by omega), packAll,
      getD_ofChunks (fun _ _ => P.length_pack _) hj hk]
  rw [unpackAll, getD_ofChunks (fun _ _ => P.length_unpack _) hj hk, hchunk]
  refine P.round_trip (fun k => v (m * j + k)) (fun k hk => hvalue _ ?_) k hk
  have hend := hfit (n := m)
  rw [Nat.mul_add] at hend
  omega

/-- The octets come back as well, and `pack` reads the `m` values only. -/
structure Onto (P : Packing m w d) : Prop where
  writes : ∀ t t' : Nat → Nat, (∀ k, k < m → t k = t' k) → P.pack t = P.pack t'
  pack_unpack : ∀ octet, P.pack (fun k => (P.unpack octet).getD k 0 % 2 ^ d) =
    (List.range w).map octet

theorem getD_unpackAll {count : Nat} (octet : Nat → UInt8) {j k : Nat} (hj : j < count)
    (hk : k < m) :
    (P.unpackAll count octet).getD (m * j + k) 0 =
      (P.unpack fun k => octet (w * j + k)).getD k 0 :=
  getD_ofChunks (fun _ _ => P.length_unpack _) hj hk 0

theorem Onto.packAll_unpackAll (h : P.Onto) {count : Nat} {octet : Nat → UInt8} {v : Nat → Nat}
    (hv : ∀ i, i < m * count → v i = (P.unpackAll count octet).getD i 0 % 2 ^ d) :
    P.packAll count v = (List.range (w * count)).map octet := by
  refine ext_getD (by simp) 0 fun i hi => ?_
  rw [length_packAll] at hi
  have hw : 0 < w := Nat.pos_of_ne_zero fun hw => by simp [hw] at hi
  refine forall_chunk (P := fun i => (P.packAll count v).getD i 0 =
    ((List.range (w * count)).map octet).getD i 0) hw (fun j k hj hk => ?_) hi
  have hvalues : P.pack (fun k => v (m * j + k)) =
      (List.range w).map fun k => octet (w * j + k) := by
    rw [← h.pack_unpack]
    refine h.writes _ _ fun k hk => ?_
    have hend : m * (j + 1) ≤ m * count := Nat.mul_le_mul_left m hj
    rw [Nat.mul_add] at hend
    rw [hv _ (by omega), getD_unpackAll octet hj hk]
  have hend : w * (j + 1) ≤ w * count := Nat.mul_le_mul_left w hj
  rw [Nat.mul_add] at hend
  rw [packAll, getD_ofChunks (fun _ _ => P.length_pack _) hj hk, hvalues,
    getD_map_range _ hk, getD_map_range _ (by omega)]

end Packing

/-! ## Fields of an octet string -/

def field (d : Nat) (octets : Bytes) (i : Nat) : Nat := leValue octets / 2 ^ (d * i) % 2 ^ d

/-- The octets are the fields of `d` bits, one behind the other. -/
structure Fields (d : Nat) (octets : Bytes) (values : List Nat) : Prop where
  value : leValue octets = Nat.ofDigits (2 ^ d) values
  width : 8 * octets.length = d * values.length
  lt : ∀ x ∈ values, x < 2 ^ d

namespace Fields

variable {d : Nat} {octets : Bytes} {values : List Nat}

theorem nil : Fields d [] [] := ⟨rfl, rfl, by simp⟩

theorem append (h : Fields d octets values) {octets' : Bytes} {values' : List Nat}
    (h' : Fields d octets' values') : Fields d (octets ++ octets') (values ++ values') where
  value := by
    have hpow : 256 ^ octets.length = (2 ^ d) ^ values.length := by
      rw [← pow_mul, ← h.width, pow_mul]
      rfl
    rw [leValue_append, h.value, h'.value, Nat.ofDigits_append, hpow]
  width := by
    rw [List.length_append, List.length_append, Nat.mul_add, Nat.mul_add, h.width, h'.width]
  lt x hx := (List.mem_append.mp hx).elim (h.lt x) (h'.lt x)

theorem ofChunks {count : Nat} {chunk : Nat → Bytes} {digits : Nat → List Nat}
    (h : ∀ i, i < count → Fields d (chunk i) (digits i)) :
    Fields d (ofChunks count chunk) (ofChunks count digits) := by
  induction count with
  | zero => exact nil
  | succ count ih =>
    rw [ofChunks_succ, ofChunks_succ]
    exact (ih fun i hi => h i (by omega)).append (h count (by omega))

theorem field_eq (h : Fields d octets values) {i : Nat} (hi : i < values.length) :
    field d octets i = values.getD i 0 := by
  have hpos : 0 < 2 ^ d := by positivity
  rw [field, h.value, pow_mul, Nat.ofDigits_div_pow_eq_ofDigits_drop i hpos values h.lt,
    List.drop_eq_getElem_cons hi, Nat.ofDigits_cons, Nat.add_mul_mod_self_left,
    Nat.mod_eq_of_lt (h.lt _ (List.getElem_mem hi)), List.getD_eq_getElem _ _ hi]

end Fields

theorem ofDigits_fields (d : Nat) {m n : Nat} (h : n < 2 ^ (d * m)) :
    Nat.ofDigits (2 ^ d) ((List.range m).map fun k => n / 2 ^ (d * k) % 2 ^ d) = n := by
  induction m generalizing n with
  | zero =>
    obtain rfl : n = 0 := by simpa using h
    rfl
  | succ m ih =>
    have hrest : n / 2 ^ d < 2 ^ (d * m) := by
      refine Nat.div_lt_of_lt_mul ?_
      rwa [← pow_add, Nat.add_comm, ← Nat.mul_succ]
    have hfields : (List.range (m + 1)).map (fun k => n / 2 ^ (d * k) % 2 ^ d) =
        n % 2 ^ d :: (List.range m).map fun k => n / 2 ^ d / 2 ^ (d * k) % 2 ^ d := by
      rw [List.range_succ_eq_map, List.map_cons, List.map_map, Nat.mul_zero, pow_zero,
        Nat.div_one]
      refine congrArg _ (List.map_congr_left fun k _ => ?_)
      rw [Function.comp_apply, Nat.succ_eq_add_one, Nat.mul_succ, Nat.add_comm (d * k), pow_add,
        Nat.div_div_eq_div_mul]
    rw [hfields, Nat.ofDigits_cons, ih hrest]
    exact Nat.mod_add_div n (2 ^ d)

theorem Packing.Onto.of_fields {m w d : Nat} {P : Packing m w d} (hwidth : 8 * w = d * m)
    (hwrites : ∀ t t' : Nat → Nat, (∀ k, k < m → t k = t' k) → P.pack t = P.pack t')
    (hfields : ∀ t, (∀ k, k < m → t k < 2 ^ d) → Fields d (P.pack t) ((List.range m).map t)) :
    P.Onto where
  writes := hwrites
  pack_unpack octet := by
    have hlength : ((List.range w).map octet).length = w := by simp
    have hlt := leValue_lt ((List.range w).map octet)
    have hpow : 256 ^ w = 2 ^ (d * m) := by
      rw [← hwidth, pow_mul]
      rfl
    rw [hlength, hpow] at hlt
    -- the fields of the octets are packed to the octets, so they are what is unpacked
    have ht : ∀ k, k < m → field d ((List.range w).map octet) k < 2 ^ d :=
      fun k _ => Nat.mod_lt _ (by positivity)
    have hpack : P.pack (field d ((List.range w).map octet)) = (List.range w).map octet := by
      refine leValue_inj ((P.length_pack _).trans hlength.symm) ?_
      rw [(hfields _ ht).value]
      exact ofDigits_fields d hlt
    have hunpack : P.unpack octet =
        P.unpack fun i => (P.pack (field d ((List.range w).map octet))).getD i 0 := by
      refine P.reads _ _ fun k hk => ?_
      rw [hpack, getD_map_range _ hk]
    have hvalues : ∀ k, k < m →
        (P.unpack octet).getD k 0 % 2 ^ d = field d ((List.range w).map octet) k := by
      intro k hk
      rw [hunpack]
      exact P.round_trip _ ht k hk
    rw [hwrites _ _ hvalues, hpack]

theorem Packing.fields_pack {m w d : Nat} {P : Packing m w d} (hwidth : 8 * w = d * m)
    {t : Nat → Nat} (ht : ∀ k, k < m → t k < 2 ^ d)
    (hvalue : leValue (P.pack t) = Nat.ofDigits (2 ^ d) ((List.range m).map t)) :
    Fields d (P.pack t) ((List.range m).map t) where
  value := hvalue
  width := by rw [P.length_pack, List.length_map, List.length_range, hwidth]
  lt := by
    intro x hx
    obtain ⟨k, hk, rfl⟩ := List.mem_map.mp hx
    exact ht k (List.mem_range.mp hk)

theorem Packing.fields_packAll {m w d : Nat} {P : Packing m w d}
    (hfields : ∀ t, (∀ k, k < m → t k < 2 ^ d) → Fields d (P.pack t) ((List.range m).map t))
    {count : Nat} {v : Nat → Nat} (hv : ∀ i, i < m * count → v i < 2 ^ d) :
    Fields d (P.packAll count v) ((List.range (m * count)).map v) := by
  have hchunks : Fields d (P.packAll count v)
      (ofChunks count fun j => (List.range m).map fun k => v (m * j + k)) := by
    refine Fields.ofChunks fun j hj => hfields _ fun k hk => hv _ ?_
    have hend : m * (j + 1) ≤ m * count := Nat.mul_le_mul_left m hj
    rw [Nat.mul_add] at hend
    omega
  have hvalues : (ofChunks count fun j => (List.range m).map fun k => v (m * j + k)) =
      (List.range (m * count)).map v := by
    have hlength : ∀ j, j < count →
        ((List.range m).map fun k => v (m * j + k)).length = m := by simp
    refine ext_getD (by rw [length_ofChunks hlength]; simp) 0 fun i hi => ?_
    rw [length_ofChunks hlength] at hi
    rw [getD_map_range _ hi]
    refine forall_chunk (P := fun i => (ofChunks count fun j =>
      (List.range m).map fun k => v (m * j + k)).getD i 0 = v i)
      (Nat.pos_of_ne_zero fun hm => by simp [hm] at hi) (fun j k hj hk => ?_) hi
    rw [getD_ofChunks hlength hj hk, getD_map_range _ hk]
  rwa [hvalues] at hchunks

end Stdx.Foundation
