import Stdx.Base64.Kernels
import Stdx.Base64.Refinement

/-!
# What the base64 kernels do to a group

Each lane against the text codec: where it writes and reads the text of the group, and where
it does not.
-/

namespace Stdx.Base64

open Stdx.Foundation

/-! ## Encoding -/

/-- The table of NEON, the signed comparisons of AVX2 and the unsigned ones of simd128. -/
theorem indexChar_eq (alphabet : Alphabet) : ∀ v < 64,
    (Neon.table alphabet).getD v.toNat 0 = sextetToBase64Char v alphabet ∧
    shiftedChar (fun x y => decide (y.toInt8 < x.toInt8)) alphabet.isUrl v =
      sextetToBase64Char v alphabet ∧
    shiftedChar (fun x y => decide (y < x)) alphabet.isUrl v =
      sextetToBase64Char v alphabet := by
  cases alphabet <;> exact forall_octet_below (by decide +kernel)

def sextets (b0 b1 b2 : UInt8) : Bytes :=
  [b0 >>> 2, ((b0 &&& 0x03) <<< 4) ||| (b1 >>> 4), ((b1 &&& 0x0f) <<< 2) ||| (b2 >>> 6),
    b2 &&& 0x3f]

theorem sextets_lt (b0 b1 b2 : UInt8) : ∀ v ∈ sextets b0 b1 b2, v < 64 := by
  intro v hv
  simp only [sextets, List.mem_cons, List.not_mem_nil, or_false] at hv
  rcases hv with rfl | rfl | rfl | rfl
  · exact sextet_lt_first b0
  · exact sextet_lt_second b0 b1
  · exact sextet_lt_third b1 b2
  · exact sextet_lt_fourth b2

theorem encodeText_group (alphabet : Alphabet) (b0 b1 b2 : UInt8) :
    encodeText alphabet [b0, b1, b2] =
      (sextets b0 b1 b2).map (sextetToBase64Char · alphabet) := by
  simp [encodeText, quad, sextets]

theorem neonEncodeLane_eq (alphabet : Alphabet) (b0 b1 b2 : UInt8) :
    Neon.encodeLane alphabet [b0, b1, b2] = encodeText alphabet [b0, b1, b2] := by
  have hsecond : ((b0 <<< 4) ||| (b1 >>> 4)) &&& (0x3f : UInt8) =
      ((b0 &&& 0x03) <<< 4) ||| (b1 >>> 4) := by
    apply octet_ext
    intro i hi
    simp
    interval_cases i <;> simp
  have hthird : ((b1 <<< 2) ||| (b2 >>> 6)) &&& (0x3f : UInt8) =
      ((b1 &&& 0x0f) <<< 2) ||| (b2 >>> 6) := by
    apply octet_ext
    intro i hi
    simp
    interval_cases i <;> simp
  have hindices : Neon.encodeLane alphabet [b0, b1, b2] = (sextets b0 b1 b2).map
      fun index => (Neon.table alphabet).getD index.toNat 0 := by
    simp only [Neon.encodeLane, hsecond, hthird, sextets]
  rw [hindices, encodeText_group]
  exact List.map_congr_left fun v hv => (indexChar_eq alphabet v (sextets_lt b0 b1 b2 v hv)).1

theorem mulhi_toNat (x y : UInt16) : (mulhi x y).toNat = x.toNat * y.toNat / 2 ^ 16 := by
  have hx := x.toNat_lt
  have hy := y.toNat_lt
  have hlt : x.toNat * y.toNat < 2 ^ 16 * 2 ^ 16 := Nat.mul_lt_mul'' hx hy
  simp only [mulhi, UInt32.toNat_toUInt16, UInt32.toNat_shiftRight, UInt32.toNat_mul,
    UInt16.toNat_toUInt32, Nat.shiftRight_eq_div_pow]
  rw [show (16 : UInt32).toNat % 32 = 16 from rfl, Nat.mod_eq_of_lt (by omega),
    Nat.mod_eq_of_lt (by omega)]

/-- The lane holds the sextets of the word `b1, b2, b0, b0` in their places. -/
theorem avx2Indices_eq (b0 b1 b2 : UInt8) :
    Avx2.indices b0 b1 b2 =
      [b1 >>> 2, ((b1 &&& 0x03) <<< 4) ||| (b2 >>> 4), b0 >>> 6, b0 &&& 0x3f] := by
  have hlow (x : UInt16) : mulhi x 0x0040 = x >>> 10 := by
    rw [← UInt16.toNat_inj, mulhi_toNat, UInt16.toNat_shiftRight, Nat.shiftRight_eq_div_pow]
    change x.toNat * 64 / 2 ^ 16 = x.toNat / 2 ^ 10
    omega
  have hhigh (x : UInt16) : mulhi x 0x0400 = x >>> 6 := by
    rw [← UInt16.toNat_inj, mulhi_toNat, UInt16.toNat_shiftRight, Nat.shiftRight_eq_div_pow]
    change x.toNat * 1024 / 2 ^ 16 = x.toNat / 2 ^ 6
    omega
  have hlow' (x : UInt16) : x * (0x0010 : UInt16) = x <<< 4 := by
    rw [← UInt16.toNat_inj, UInt16.toNat_mul, UInt16.toNat_shiftLeft, Nat.shiftLeft_eq]
    rfl
  have hhigh' (x : UInt16) : x * (0x0100 : UInt16) = x <<< 8 := by
    rw [← UInt16.toNat_inj, UInt16.toNat_mul, UInt16.toNat_shiftLeft, Nat.shiftLeft_eq]
    rfl
  simp only [Avx2.indices, hlow, hhigh, hlow', hhigh', List.cons.injEq, and_true]
  refine ⟨?_, ?_, ?_, ?_⟩
  all_goals
    apply octet_ext
    intro i hi
    simp
    interval_cases i <;> simp

/-- The third index keeps the high bits of the first octet, the fourth the third sextet of
the octets in front of it. -/
theorem simd128Indices_eq (b0 b1 b2 : UInt8) :
    Simd128.indices b0 b1 b2 =
      [b0 >>> 2, ((b0 &&& 0x03) <<< 4) ||| (b1 >>> 4),
        (b0 >>> 4) ||| (((b1 &&& 0x0f) <<< 2) ||| (b2 >>> 6)),
        (((b0 &&& 0x0f) <<< 2) ||| (b1 >>> 6)) ||| (b2 &&& 0x3f)] := by
  simp only [Simd128.indices, List.cons.injEq, and_true]
  refine ⟨?_, ?_, ?_, ?_⟩
  all_goals
    apply octet_ext
    intro i hi
    simp
    interval_cases i <;> simp

/-- The indices that a kernel gives a group of three octets. -/
def laneIndices : VectorUnit → UInt8 → UInt8 → UInt8 → Bytes
  | .avx2 => Avx2.indices
  | .simd128 => Simd128.indices
  | .neon | .scalar => sextets

theorem laneIndices_lt (unit : VectorUnit) (b0 b1 b2 : UInt8) :
    ∀ v ∈ laneIndices unit b0 b1 b2, v < 64 := by
  have hnibble (b : UInt8) : b >>> 4 < 64 := by
    have hlt := b.toNat_lt
    rw [UInt8.lt_iff_toNat_lt, UInt8.toNat_shiftRight, Nat.shiftRight_eq_div_pow]
    change b.toNat / 2 ^ 4 < 64
    omega
  have hpair (b : UInt8) : b >>> 6 < 64 := by
    have hlt := b.toNat_lt
    rw [UInt8.lt_iff_toNat_lt, UInt8.toNat_shiftRight, Nat.shiftRight_eq_div_pow]
    change b.toNat / 2 ^ 6 < 64
    omega
  cases unit with
  | scalar | neon => exact sextets_lt b0 b1 b2
  | avx2 =>
    intro v hv
    rw [laneIndices, avx2Indices_eq] at hv
    simp only [List.mem_cons, List.not_mem_nil, or_false] at hv
    rcases hv with rfl | rfl | rfl | rfl
    · exact sextet_lt_first b1
    · exact sextet_lt_second b1 b2
    · exact hpair b0
    · exact sextet_lt_fourth b0
  | simd128 =>
    intro v hv
    rw [laneIndices, simd128Indices_eq] at hv
    simp only [List.mem_cons, List.not_mem_nil, or_false] at hv
    rcases hv with rfl | rfl | rfl | rfl
    · exact sextet_lt_first b0
    · exact sextet_lt_second b0 b1
    · exact (or_lt_64 _ _).mpr ⟨hnibble b0, sextet_lt_third b1 b2⟩
    · exact (or_lt_64 _ _).mpr ⟨sextet_lt_third b0 b1, sextet_lt_fourth b2⟩

/-- The lane of a build, and the text codec where it has none. -/
def encodeLane (unit : VectorUnit) (alphabet : Alphabet) : Bytes → Bytes :=
  match unit with
  | .neon => Neon.encodeLane alphabet
  | .avx2 => Avx2.encodeLane alphabet
  | .simd128 => Simd128.encodeLane alphabet
  | .scalar => encodeText alphabet

theorem encodeLane_eq (unit : VectorUnit) (alphabet : Alphabet) (b0 b1 b2 : UInt8) :
    encodeLane unit alphabet [b0, b1, b2] =
      (laneIndices unit b0 b1 b2).map (sextetToBase64Char · alphabet) := by
  have hlt := laneIndices_lt unit b0 b1 b2
  cases unit with
  | scalar => exact encodeText_group alphabet b0 b1 b2
  | neon => exact (neonEncodeLane_eq alphabet b0 b1 b2).trans (encodeText_group alphabet b0 b1 b2)
  | avx2 => exact List.map_congr_left fun v hv => (indexChar_eq alphabet v (hlt v hv)).2.1
  | simd128 => exact List.map_congr_left fun v hv => (indexChar_eq alphabet v (hlt v hv)).2.2

/-- The groups whose text a kernel writes. -/
def WritesGroup : VectorUnit → Bytes → Prop
  | .avx2, [b0, b1, b2] => b0 = b1 ∧ b1 = b2 ∧ b0 &&& 0x0f = 0
  | .simd128, [b0, b1, b2] =>
    (b0 >>> 4) ||| (((b1 &&& 0x0f) <<< 2) ||| (b2 >>> 6)) =
        ((b1 &&& 0x0f) <<< 2) ||| (b2 >>> 6) ∧
      (((b0 &&& 0x0f) <<< 2) ||| (b1 >>> 6)) ||| (b2 &&& 0x3f) = b2 &&& 0x3f
  | _, _ => True

instance (unit : VectorUnit) (octets : Bytes) : Decidable (WritesGroup unit octets) := by
  unfold WritesGroup
  split <;> infer_instance

theorem map_char_inj (alphabet : Alphabet) {xs ys : Bytes} (hxs : ∀ v ∈ xs, v < 64)
    (hys : ∀ v ∈ ys, v < 64) :
    xs.map (sextetToBase64Char · alphabet) = ys.map (sextetToBase64Char · alphabet) ↔
      xs = ys := by
  refine ⟨fun h => ?_, fun h => h ▸ rfl⟩
  have hread {zs : Bytes} (hzs : ∀ v ∈ zs, v < 64) :
      (zs.map (sextetToBase64Char · alphabet)).map (base64CharToSextet · alphabet) = zs := by
    rw [List.map_map]
    conv_rhs => rw [← List.map_id zs]
    exact List.map_congr_left fun v hv => base64CharToSextet_char alphabet (hzs v hv)
  rw [← hread hxs, h, hread hys]

theorem sextet_second_toNat (b0 b1 : UInt8) :
    (((b0 &&& 0x03) <<< 4) ||| (b1 >>> 4)).toNat = b0.toNat % 4 * 16 + b1.toNat / 16 := by
  have hlt := b1.toNat_lt
  have hand : (b0 &&& 0x03).toNat = b0.toNat % 4 := Nat.and_two_pow_sub_one_eq_mod _ 2
  have hshift : (b1 >>> 4).toNat = b1.toNat / 16 := Nat.shiftRight_eq_div_pow _ 4
  have hsum := @shiftLeft_or_toNat (b0 &&& 0x03) (b1 >>> 4) 4 (by decide)
    (by rw [hshift]; change _ < 16; omega)
  rw [hsum, hand, hshift]
  change b0.toNat % 4 * 16 % 256 + _ = _
  omega

theorem sextet_third_toNat (b1 b2 : UInt8) :
    (((b1 &&& 0x0f) <<< 2) ||| (b2 >>> 6)).toNat = b1.toNat % 16 * 4 + b2.toNat / 64 := by
  have hlt := b2.toNat_lt
  have hand : (b1 &&& 0x0f).toNat = b1.toNat % 16 := Nat.and_two_pow_sub_one_eq_mod _ 4
  have hshift : (b2 >>> 6).toNat = b2.toNat / 64 := Nat.shiftRight_eq_div_pow _ 6
  have hsum := @shiftLeft_or_toNat (b1 &&& 0x0f) (b2 >>> 6) 2 (by decide)
    (by rw [hshift]; change _ < 4; omega)
  rw [hsum, hand, hshift]
  change b1.toNat % 16 * 4 % 256 + _ = _
  omega

theorem avx2Indices_iff (b0 b1 b2 : UInt8) :
    Avx2.indices b0 b1 b2 = sextets b0 b1 b2 ↔ b0 = b1 ∧ b1 = b2 ∧ b0 &&& 0x0f = 0 := by
  have hmask : b0.toNat &&& 15 = b0.toNat % 16 := Nat.and_two_pow_sub_one_eq_mod _ 4
  have hmask0 : b0.toNat &&& 63 = b0.toNat % 64 := Nat.and_two_pow_sub_one_eq_mod _ 6
  have hmask2 : b2.toNat &&& 63 = b2.toNat % 64 := Nat.and_two_pow_sub_one_eq_mod _ 6
  have h0 := b0.toNat_lt
  have h1 := b1.toNat_lt
  have h2 := b2.toNat_lt
  rw [avx2Indices_eq, sextets]
  simp only [List.cons.injEq, and_true, ← UInt8.toNat_inj, sextet_second_toNat,
    sextet_third_toNat, UInt8.toNat_shiftRight, UInt8.toNat_and, Nat.shiftRight_eq_div_pow]
  change b1.toNat / 2 ^ 2 = b0.toNat / 2 ^ 2 ∧ _ ∧ b0.toNat / 2 ^ 6 = _ ∧
    b0.toNat &&& 63 = b2.toNat &&& 63 ↔ _ ∧ _ ∧ b0.toNat &&& 15 = 0
  omega

theorem writesGroup_iff (unit : VectorUnit) (alphabet : Alphabet) (b0 b1 b2 : UInt8) :
    encodeLane unit alphabet [b0, b1, b2] = encodeText alphabet [b0, b1, b2] ↔
      WritesGroup unit [b0, b1, b2] := by
  rw [encodeLane_eq, encodeText_group,
    map_char_inj alphabet (laneIndices_lt unit b0 b1 b2) (sextets_lt b0 b1 b2)]
  cases unit with
  | scalar | neon => exact ⟨fun _ => trivial, fun _ => rfl⟩
  | avx2 => exact avx2Indices_iff b0 b1 b2
  | simd128 =>
    rw [laneIndices, simd128Indices_eq, sextets]
    simp only [List.cons.injEq, and_true, true_and]
    rfl

/-! ## Decoding -/

/-- NEON and AVX2 read `+` and `/` under every alphabet. -/
def looseSextet? (alphabet : Alphabet) (c : UInt8) : Option UInt8 :=
  if alphabet.isUrl ∧ c = 43 then some 62
  else if alphabet.isUrl ∧ c = 47 then some 63
  else sextet? alphabet c

/-- What the kernels add to a character to make a sextet of it, zero for none. -/
def shift (url : Bool) (c : UInt8) : UInt8 :=
  if url ∧ c = 95 then 224
  else if url ∧ c = 45 then 17
  else if c = 47 then 16
  else if c = 43 then 19
  else if 97 ≤ c ∧ c ≤ 122 then 185
  else if 65 ≤ c ∧ c ≤ 90 then 191
  else if 48 ≤ c ∧ c ≤ 57 then 4
  else 0

theorem or_masks (lower upper digit : Bool) (h : digit = true → lower = false ∧ upper = false) :
    (if lower then laneMask lower &&& 185 else laneMask upper &&& 191) ||| (laneMask digit &&& 4) =
      if lower then 185 else if upper then 191 else if digit then (4 : UInt8) else 0 := by
  cases digit with
  | true =>
    obtain ⟨rfl, rfl⟩ := h rfl
    rfl
  | false => cases lower <;> cases upper <;> rfl

theorem digit_apart (c : UInt8) (h : decide (48 ≤ c ∧ c ≤ 57) = true) :
    decide (97 ≤ c ∧ c ≤ 122) = false ∧ decide (65 ≤ c ∧ c ≤ 90) = false := by
  simp only [UInt8.le_iff_toNat_le, decide_eq_true_eq, decide_eq_false_iff_not] at h ⊢
  change 48 ≤ c.toNat ∧ c.toNat ≤ 57 at h
  change ¬(97 ≤ c.toNat ∧ c.toNat ≤ 122) ∧ ¬(65 ≤ c.toNat ∧ c.toNat ≤ 90)
  omega

theorem neonLookup_eq (c : UInt8) (url : Bool) :
    Neon.lookupByteBlend c url = (shift url c, laneMask (shift url c == 0)) := by
  have hupper : (decide (64 < c) && decide (c < 91)) = decide (65 ≤ c ∧ c ≤ 90) :=
    decide_between rfl rfl c
  have hlower : (decide (96 < c) && decide (c < 123)) = decide (97 ≤ c ∧ c ≤ 122) :=
    decide_between rfl rfl c
  have hdigit : (decide (47 < c) && decide (c < 58)) = decide (48 ≤ c ∧ c ≤ 57) :=
    decide_between rfl rfl c
  have hshift : (Neon.lookupByteBlend c url).1 = shift url c := by
    simp only [Neon.lookupByteBlend, laneMask_and, cmpeq, bitSelect_laneMask]
    rw [hupper, hlower, hdigit, or_masks _ _ _ (digit_apart c)]
    cases url <;> simp [shift]
  exact Prod.ext hshift (congrArg (fun s => cmpeq s 0) hshift)

theorem avx2Shift_eq (c : UInt8) (url : Bool) : Avx2.shift c url = shift url c := by
  have hupper : cmpgt c 64 &&& cmpgt 91 c = laneMask (decide (65 ≤ c ∧ c ≤ 90)) :=
    cmpgt_between rfl rfl (by decide) c
  have hlower : cmpgt c 96 &&& cmpgt 123 c = laneMask (decide (97 ≤ c ∧ c ≤ 122)) :=
    cmpgt_between rfl rfl (by decide) c
  have hdigit : cmpgt c 47 &&& cmpgt 58 c = laneMask (decide (48 ≤ c ∧ c ≤ 57)) :=
    cmpgt_between rfl rfl (by decide) c
  simp only [Avx2.shift, cmpeq, hupper, hlower, hdigit, blendv_laneMask]
  rw [or_masks _ _ _ (digit_apart c)]
  cases url <;> simp [shift]

theorem classifySextet_eq (c : UInt8) (url : Bool) :
    Simd128.classifySextet c url = c + shift url c := by
  simp only [Simd128.classifySextet, laneMask_and, cmpeq, bitSelect_laneMask,
    ← Bool.decide_and]
  rw [or_masks _ _ _ (digit_apart c)]
  cases url <;> simp [shift]

theorem sextet?_eq_apply (alphabet : Alphabet) (c : UInt8) :
    sextet? alphabet c = (characters alphabet).inverse.apply c := by
  rw [sextet?, base64CharToSextet_eq]
  cases happly : (characters alphabet).inverse.apply c with
  | none => rfl
  | some v =>
    obtain ⟨s, hs, hholds, -⟩ := RangeMap.lookup_mem (RangeMap.apply_iff.mpr happly)
    have hlt : v < 64 := by
      have hhi : ∀ s ∈ (characters alphabet).segments, s.hi < 64 := by
        cases alphabet <;> decide
      exact UInt8.lt_of_le_of_lt hholds.2 (hhi s hs)
    exact if_pos hlt

theorem shift_reads (alphabet : Alphabet) : ∀ c : UInt8,
    (if shift alphabet.isUrl c = 0 then none else some (c + shift alphabet.isUrl c)) =
      looseSextet? alphabet c ∧
    (sextet? alphabet c).all (c + shift alphabet.isUrl c == ·) = true := by
  simp only [looseSextet?, sextet?_eq_apply]
  cases alphabet <;> exact forall_octet (by decide +kernel)

theorem sextet?_lt {alphabet : Alphabet} {c v : UInt8} (h : sextet? alphabet c = some v) :
    v < 64 := by
  unfold sextet? at h
  simp only at h
  split at h
  · next hlt =>
    obtain rfl := Option.some.inj h
    exact hlt
  · cases h

theorem looseSextet?_lt {alphabet : Alphabet} {c v : UInt8}
    (h : looseSextet? alphabet c = some v) : v < 64 := by
  unfold looseSextet? at h
  split_ifs at h
  · obtain rfl := Option.some.inj h
    decide
  · obtain rfl := Option.some.inj h
    decide
  · exact sextet?_lt h

/-- The octets of four characters that `read` knows. -/
def readLane (read : UInt8 → Option UInt8) : Bytes → Option Bytes
  | [c0, c1, c2, c3] => do
      let v0 ← read c0
      let v1 ← read c1
      let v2 ← read c2
      let v3 ← read c3
      some (packed v0 v1 v2 v3)
  | _ => none

theorem decodeText_group (alphabet : Alphabet) (c0 c1 c2 c3 : UInt8) :
    decodeText alphabet [c0, c1, c2, c3] = readLane (sextet? alphabet) [c0, c1, c2, c3] := by
  simp only [decodeText, readLane, packed, Option.bind_eq_bind, Option.bind_some]

theorem neonDecodeLane_eq (alphabet : Alphabet) (c0 c1 c2 c3 : UInt8) :
    Neon.decodeLane alphabet [c0, c1, c2, c3] =
      readLane (looseSextet? alphabet) [c0, c1, c2, c3] := by
  simp only [Neon.decodeLane, readLane, neonLookup_eq, ← (shift_reads alphabet _).1, ne_eq,
    UInt8.or_eq_zero_iff, laneMask_eq_zero, beq_eq_false_iff_ne]
  by_cases h0 : shift alphabet.isUrl c0 = 0
  · simp [h0]
  · by_cases h1 : shift alphabet.isUrl c1 = 0
    · simp [h1]
    · by_cases h2 : shift alphabet.isUrl c2 = 0
      · simp [h2]
      · by_cases h3 : shift alphabet.isUrl c3 = 0
        · simp [h3]
        · simp [h0, h1, h2, h3]

theorem avx2Packed_eq {v0 v1 v2 v3 : UInt8} (h0 : v0 < 64) (h1 : v1 < 64) (h2 : v2 < 64)
    (h3 : v3 < 64) : Avx2.packed v0 v1 v2 v3 = packed v0 v1 v2 v3 := by
  have h0' : v0.toNat < 64 := UInt8.lt_iff_toNat_lt.mp h0
  have h1' : v1.toNat < 64 := UInt8.lt_iff_toNat_lt.mp h1
  have h2' : v2.toNat < 64 := UInt8.lt_iff_toNat_lt.mp h2
  have h3' : v3.toNat < 64 := UInt8.lt_iff_toNat_lt.mp h3
  have hshift1 : (v1 >>> 4).toNat = v1.toNat / 16 := Nat.shiftRight_eq_div_pow _ 4
  have hshift2 : (v2 >>> 2).toNat = v2.toNat / 4 := Nat.shiftRight_eq_div_pow _ 2
  have hsum0 := @shiftLeft_or_toNat v0 (v1 >>> 4) 2 (by decide)
    (by rw [hshift1]; change _ < 4; omega)
  have hsum1 := @shiftLeft_or_toNat v1 (v2 >>> 2) 4 (by decide)
    (by rw [hshift2]; change _ < 16; omega)
  have hsum2 := @shiftLeft_or_toNat v2 v3 6 (by decide) (by change _ < 64; omega)
  have hnumber : ((v0.toUInt16 * 0x40 + v1.toUInt16 * 0x01).toUInt32 * 0x1000 +
      (v2.toUInt16 * 0x40 + v3.toUInt16 * 0x01).toUInt32 * 0x0001).toNat =
      (v0.toNat * 64 + v1.toNat) * 4096 + (v2.toNat * 64 + v3.toNat) := by
    simp only [UInt32.toNat_add, UInt32.toNat_mul, UInt16.toNat_toUInt32, UInt16.toNat_add,
      UInt16.toNat_mul, UInt8.toNat_toUInt16]
    change (((v0.toNat * 64 % 2 ^ 16 + v1.toNat * 1 % 2 ^ 16) % 2 ^ 16) * 4096 % 2 ^ 32 +
      ((v2.toNat * 64 % 2 ^ 16 + v3.toNat * 1 % 2 ^ 16) % 2 ^ 16) * 1 % 2 ^ 32) % 2 ^ 32 = _
    omega
  simp only [Avx2.packed, packed, List.cons.injEq, and_true, ← UInt8.toNat_inj,
    UInt32.toNat_toUInt8, UInt32.toNat_shiftRight, Nat.shiftRight_eq_div_pow, hnumber, hsum0,
    hsum1, hsum2, hshift1, hshift2]
  change _ / 2 ^ 16 % 2 ^ 8 = v0.toNat * 4 % 256 + _ ∧ _ / 2 ^ 8 % 2 ^ 8 =
    v1.toNat * 16 % 256 + _ ∧ _ = v2.toNat * 64 % 256 + _
  omega

theorem avx2DecodeLane_eq (alphabet : Alphabet) (c0 c1 c2 c3 : UInt8) :
    Avx2.decodeLane alphabet [c0, c1, c2, c3] =
      readLane (looseSextet? alphabet) [c0, c1, c2, c3] := by
  have hlt {c : UInt8} (h : shift alphabet.isUrl c ≠ 0) : c + shift alphabet.isUrl c < 64 :=
    looseSextet?_lt ((shift_reads alphabet c).1.symm.trans (if_neg h))
  simp only [Avx2.decodeLane, readLane, avx2Shift_eq, ← (shift_reads alphabet _).1]
  by_cases h0 : shift alphabet.isUrl c0 = 0
  · simp [h0]
  · by_cases h1 : shift alphabet.isUrl c1 = 0
    · simp [h1]
    · by_cases h2 : shift alphabet.isUrl c2 = 0
      · simp [h2]
      · by_cases h3 : shift alphabet.isUrl c3 = 0
        · simp [h3]
        · simp [h0, h1, h2, h3, avx2Packed_eq (hlt h0) (hlt h1) (hlt h2) (hlt h3)]

/-- The lane of a build, and the text codec where it has none. -/
def decodeLane (unit : VectorUnit) (alphabet : Alphabet) : Bytes → Option Bytes :=
  match unit with
  | .neon => Neon.decodeLane alphabet
  | .avx2 => Avx2.decodeLane alphabet
  | .simd128 => Simd128.decodeLane alphabet
  | .scalar => decodeText alphabet

/-- The groups of characters that a kernel takes. -/
def TakesGroup (unit : VectorUnit) (alphabet : Alphabet) (chars : Bytes) : Prop :=
  match unit with
  | .scalar => ∀ c ∈ chars, (sextet? alphabet c).isSome
  | .neon | .avx2 =>
    ∀ c ∈ chars, (sextet? alphabet c).isSome ∨ alphabet.isUrl = true ∧ (c = 43 ∨ c = 47)
  | .simd128 => Simd128.classifySextet (chars.headD 0) alphabet.isUrl ≤ 63

theorem readLane_isSome (read : UInt8 → Option UInt8) (c0 c1 c2 c3 : UInt8) :
    (readLane read [c0, c1, c2, c3]).isSome ↔ ∀ c ∈ [c0, c1, c2, c3], (read c).isSome := by
  simp only [readLane, List.forall_mem_cons, List.not_mem_nil, false_imp_iff, implies_true,
    and_true]
  cases read c0 <;> cases read c1 <;> cases read c2 <;> cases read c3 <;> simp

theorem looseSextet?_isSome (alphabet : Alphabet) (c : UInt8) :
    (looseSextet? alphabet c).isSome ↔
      (sextet? alphabet c).isSome ∨ alphabet.isUrl = true ∧ (c = 43 ∨ c = 47) := by
  unfold looseSextet?
  split_ifs <;> grind

theorem decodeLane_isSome (unit : VectorUnit) (alphabet : Alphabet) (c0 c1 c2 c3 : UInt8) :
    (decodeLane unit alphabet [c0, c1, c2, c3]).isSome ↔
      TakesGroup unit alphabet [c0, c1, c2, c3] := by
  cases unit with
  | scalar =>
    rw [decodeLane, decodeText_group, readLane_isSome]
    rfl
  | neon =>
    rw [decodeLane, neonDecodeLane_eq, readLane_isSome]
    simp only [looseSextet?_isSome]
    rfl
  | avx2 =>
    rw [decodeLane, avx2DecodeLane_eq, readLane_isSome]
    simp only [looseSextet?_isSome]
    rfl
  | simd128 =>
    simp only [decodeLane, Simd128.decodeLane, TakesGroup, List.headD_cons]
    split_ifs with h
    · simpa using h
    · simpa using h

theorem readLane_mono {read other : UInt8 → Option UInt8}
    (h : ∀ c v, read c = some v → other c = some v) {chars out : Bytes}
    (hread : readLane read chars = some out) : readLane other chars = some out := by
  unfold readLane at hread ⊢
  split at hread
  · simp only [Option.bind_eq_bind, Option.bind_eq_some_iff] at hread ⊢
    obtain ⟨v0, h0, v1, h1, v2, h2, v3, h3, hout⟩ := hread
    exact ⟨v0, h _ _ h0, v1, h _ _ h1, v2, h _ _ h2, v3, h _ _ h3, hout⟩
  · cases hread

theorem looseSextet?_of_sextet? {alphabet : Alphabet} {c v : UInt8}
    (h : sextet? alphabet c = some v) : looseSextet? alphabet c = some v := by
  have hplus : alphabet.isUrl = true → sextet? alphabet 43 = none := by
    cases alphabet <;> decide
  have hslash : alphabet.isUrl = true → sextet? alphabet 47 = none := by
    cases alphabet <;> decide
  unfold looseSextet?
  split_ifs with h43 h47
  · rw [h43.2, hplus h43.1] at h
    cases h
  · rw [h47.2, hslash h47.1] at h
    cases h
  · exact h

theorem decodeLane_of_decodeText {alphabet : Alphabet} {c0 c1 c2 c3 : UInt8} {out : Bytes}
    (unit : VectorUnit) (h : decodeText alphabet [c0, c1, c2, c3] = some out) :
    decodeLane unit alphabet [c0, c1, c2, c3] = some out := by
  cases unit with
  | scalar => exact h
  | neon =>
    rw [decodeText_group] at h
    rw [decodeLane, neonDecodeLane_eq]
    exact readLane_mono (fun _ _ => looseSextet?_of_sextet?) h
  | avx2 =>
    rw [decodeText_group] at h
    rw [decodeLane, avx2DecodeLane_eq]
    exact readLane_mono (fun _ _ => looseSextet?_of_sextet?) h
  | simd128 =>
    have hclassify {c v : UInt8} (hc : sextet? alphabet c = some v) :
        Simd128.classifySextet c alphabet.isUrl = v := by
      have hall := (shift_reads alphabet c).2
      rw [hc] at hall
      rw [classifySextet_eq]
      simpa using hall
    rw [decodeText_group] at h
    simp only [readLane, Option.bind_eq_bind, Option.bind_eq_some_iff] at h
    obtain ⟨v0, h0, v1, h1, v2, h2, v3, h3, hout⟩ := h
    have hlt : v0.toNat < 64 := UInt8.lt_iff_toNat_lt.mp (sextet?_lt h0)
    have hvalid : ¬v0 > 63 := by
      rw [gt_iff_lt, UInt8.lt_iff_toNat_lt]
      change ¬63 < v0.toNat
      omega
    simp only [decodeLane, Simd128.decodeLane, hclassify h0, hclassify h1, hclassify h2,
      hclassify h3]
    rw [if_neg hvalid, hout]

/-- Under the standard alphabets NEON and AVX2 read the texts only. -/
theorem decodeLane_standard {unit : VectorUnit} {alphabet : Alphabet} (hunit : unit ≠ .simd128)
    (hurl : alphabet.isUrl = false) (c0 c1 c2 c3 : UInt8) :
    decodeLane unit alphabet [c0, c1, c2, c3] = decodeText alphabet [c0, c1, c2, c3] := by
  have hread : looseSextet? alphabet = sextet? alphabet := by
    funext c
    simp [looseSextet?, hurl]
  cases unit with
  | scalar => rfl
  | neon => rw [decodeLane, neonDecodeLane_eq, hread, decodeText_group]
  | avx2 => rw [decodeLane, avx2DecodeLane_eq, hread, decodeText_group]
  | simd128 => exact absurd rfl hunit

theorem decodeLane_length {unit : VectorUnit} {alphabet : Alphabet} {c0 c1 c2 c3 : UInt8}
    {out : Bytes} (h : decodeLane unit alphabet [c0, c1, c2, c3] = some out) :
    out.length = 3 := by
  have hread {read : UInt8 → Option UInt8} (hlane : readLane read [c0, c1, c2, c3] = some out) :
      out.length = 3 := by
    simp only [readLane, Option.bind_eq_bind, Option.bind_eq_some_iff] at hlane
    obtain ⟨v0, -, v1, -, v2, -, v3, -, hout⟩ := hlane
    obtain rfl := Option.some.inj hout
    rfl
  cases unit with
  | scalar => exact hread ((decodeText_group ..).symm.trans h)
  | neon => exact hread ((neonDecodeLane_eq ..).symm.trans h)
  | avx2 => exact hread ((avx2DecodeLane_eq ..).symm.trans h)
  | simd128 =>
    simp only [decodeLane, Simd128.decodeLane] at h
    split at h
    · cases h
    · obtain rfl := Option.some.inj h
      rfl

end Stdx.Base64
