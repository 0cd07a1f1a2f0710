import Stdx.Base32.Kernels
import Stdx.Base32.Padding

/-!
# What `encode_into` and `decode_into` compute

Every build reads the same texts.  NEON writes the text of the data; AVX2 writes the character
of quintet 31 for quintet 15 in the groups of its blocks.
-/

namespace Stdx.Base32

open Stdx.Foundation

section Lanes

variable (alphabet : Alphabet)

/-! ## Encoding one group -/

/-- The comparison `15 > index` of AVX2 is the wrong one. -/
theorem vtbl_eq : ∀ q < 32, Neon.vtbl (tblBytes alphabet) q = quintetToChar q alphabet ∧
    (Avx2.vtbl (tblBytes alphabet) q = quintetToChar q alphabet ↔ q ≠ 15) := by
  cases alphabet <;> exact forall_octet_below (by decide +kernel)

variable {alphabet} {g : Bytes}

theorem eq_of_length_five (h : g.length = 5) : ∃ b0 b1 b2 b3 b4, g = [b0, b1, b2, b3, b4] := by
  obtain ⟨b0, g, rfl⟩ := List.exists_cons_of_length_eq_add_one h
  obtain ⟨b1, g, rfl⟩ := List.exists_cons_of_length_eq_add_one (Nat.succ.inj h)
  obtain ⟨b2, b3, b4, rfl⟩ := List.length_eq_three.mp (Nat.succ.inj (Nat.succ.inj h))
  exact ⟨b0, b1, b2, b3, b4, rfl⟩

theorem encodeLane_eq (vtbl : Bytes → UInt8 → UInt8) (h : g.length = 5) :
    encodeLane vtbl alphabet g = (quintets g).map (vtbl (tblBytes alphabet)) := by
  obtain ⟨b0, b1, b2, b3, b4, rfl⟩ := eq_of_length_five h
  rfl

variable (alphabet) in
theorem encodeLane_length (vtbl : Bytes → UInt8 → UInt8) (h : g.length = 5) :
    (encodeLane vtbl alphabet g).length = 8 := by
  rw [encodeLane_eq vtbl h, List.length_map]
  rfl

theorem Neon.encodeLane_eq (h : g.length = 5) :
    encodeLane Neon.vtbl alphabet g = encodeGroup alphabet g := by
  rw [Base32.encodeLane_eq _ h, encodeGroup_five alphabet g h]
  exact List.map_congr_left fun q hq => (vtbl_eq alphabet q (quintets_lt g q hq)).1

theorem Avx2.encodeLane_eq_iff (h : g.length = 5) :
    encodeLane Avx2.vtbl alphabet g = encodeGroup alphabet g ↔ 15 ∉ quintets g := by
  rw [Base32.encodeLane_eq _ h, encodeGroup_five alphabet g h, List.map_inj_left]
  constructor
  · intro hsame hmem
    exact (vtbl_eq alphabet 15 (by decide)).2.mp (hsame 15 hmem) rfl
  · intro hnone q hq
    exact (vtbl_eq alphabet q (quintets_lt g q hq)).2.mpr fun heq => hnone (heq ▸ hq)

/-! ## Decoding one group -/

theorem eq_of_length_eight (h : g.length = 8) :
    ∃ c0 c1 c2 c3 c4 c5 c6 c7, g = [c0, c1, c2, c3, c4, c5, c6, c7] := by
  obtain ⟨c0, g, rfl⟩ := List.exists_cons_of_length_eq_add_one h
  obtain ⟨c1, g, rfl⟩ := List.exists_cons_of_length_eq_add_one (Nat.succ.inj h)
  obtain ⟨c2, g, rfl⟩ := List.exists_cons_of_length_eq_add_one (Nat.succ.inj (Nat.succ.inj h))
  obtain ⟨c3, c4, c5, c6, c7, rfl⟩ := eq_of_length_five
      (Nat.succ.inj (Nat.succ.inj (Nat.succ.inj h)))
  exact ⟨c0, c1, c2, c3, c4, c5, c6, c7, rfl⟩

/-- The quintet of a character by comparisons. -/
def Ranges.quintet (r : Ranges) (c : UInt8) : UInt8 :=
  if r.r1Lo ≤ c ∧ c ≤ r.r1Hi then c - r.r1Sub
  else if r.r2Lo ≤ c ∧ c ≤ r.r2Hi then c - r.r2Sub
  else 0x20

/-- Both ranges lie below the top bit, where signed comparisons are those of the octets. -/
structure Ranges.Small (r : Ranges) : Prop where
  r1Lo_pos : 0 < r.r1Lo
  r1Lo_le : r.r1Lo ≤ 128
  r1Hi_lt : r.r1Hi < 128
  r1Sub_le : r.r1Sub ≤ r.r1Lo
  r2Lo_pos : 0 < r.r2Lo
  r2Lo_le : r.r2Lo ≤ 128
  r2Hi_lt : r.r2Hi < 128
  r2Sub_le : r.r2Sub ≤ r.r2Lo

variable {r : Ranges}

theorem small_of_ranges? (h : ranges? alphabet = some r) : r.Small := by
  cases alphabet <;> cases h <;>
    exact ⟨by decide, by decide, by decide, by decide, by decide, by decide, by decide, by decide⟩

theorem Neon.charToQuintet_quintet (r : Ranges) (c : UInt8) :
    Neon.charToQuintet r c = r.quintet c := by
  simp only [Neon.charToQuintet, laneMask_and, bitSelect_laneMask, Bool.and_eq_true,
    decide_eq_true_eq, ge_iff_le]
  rfl

theorem Avx2.charToQuintet_quintet (h : r.Small) (c : UInt8) :
    Avx2.charToQuintet r c = r.quintet c := by
  simp only [Avx2.charToQuintet, cmpgt_inRange h.r1Lo_pos h.r1Lo_le h.r1Hi_lt,
    cmpgt_inRange h.r2Lo_pos h.r2Lo_le h.r2Hi_lt, blendv_laneMask, decide_eq_true_eq]
  rfl

theorem rangesToQuintet_quintet (m : RangeMap) (r : Ranges) (base : UInt8)
    (hinverse : m.inverse.segments = [⟨r.r1Lo, r.r1Hi, 0⟩, ⟨r.r2Lo, r.r2Hi, base⟩])
    (hfirst : r.r1Sub = r.r1Lo) (hsecond : r.r2Sub = r.r2Lo - base) (c : UInt8) :
    rangesToQuintet r.r1Lo r.r1Hi r.r2Lo r.r2Hi base c = r.quintet c := by
  have hmove : c - r.r2Lo + base = c - (r.r2Lo - base) := by
    rw [UInt8.sub_eq_add_neg, UInt8.sub_eq_add_neg, UInt8.neg_sub, UInt8.add_assoc,
      UInt8.add_comm (-r.r2Lo), ← UInt8.sub_eq_add_neg]
  rw [rangesToQuintet_eq, ← hinverse, RangeMap.masked_eq, RangeMap.apply, hinverse]
  simp only [RangeMap.lookup, Segment.move, Ranges.quintet, hfirst, hsecond]
  by_cases hone : r.r1Lo ≤ c ∧ c ≤ r.r1Hi
  · rw [if_pos (by exact hone), if_pos hone, Option.getD_some, UInt8.add_zero]
  · rw [if_neg (by exact hone), if_neg hone]
    by_cases htwo : r.r2Lo ≤ c ∧ c ≤ r.r2Hi
    · rw [if_pos (by exact htwo), if_pos htwo, Option.getD_some, hmove]
    · rw [if_neg (by exact htwo), if_neg htwo, Option.getD_none]

theorem charToQuintet_quintet (h : ranges? alphabet = some r) (c : UInt8) :
    charToQuintet c alphabet = r.quintet c := by
  cases alphabet with
  | rfc4648 | rfc4648NoPadding =>
    cases h
    exact rangesToQuintet_quintet upper ⟨65, 90, 65, 50, 55, 50 - 26⟩ 26 (by decide) rfl rfl c
  | rfc4648Lower | rfc4648LowerNoPadding =>
    cases h
    exact rangesToQuintet_quintet lower ⟨97, 122, 97, 50, 55, 50 - 26⟩ 26 (by decide) rfl rfl c
  | rfc4648Hex | rfc4648HexNoPadding =>
    cases h
    exact rangesToQuintet_quintet hex ⟨48, 57, 48, 65, 86, 65 - 10⟩ 10 (by decide) rfl rfl c
  | rfc4648HexLower | rfc4648HexLowerNoPadding =>
    cases h
    exact rangesToQuintet_quintet hexLower ⟨48, 57, 48, 97, 118, 97 - 10⟩ 10 (by decide) rfl rfl c
  | crockford | z32 => cases h

theorem Ranges.Small.quintet_lt (h : r.Small) (c : UInt8) : r.quintet c < 128 := by
  have hsub {lo hi sub : UInt8} (hhi : hi < 128) (hlo : sub ≤ lo) (hc : lo ≤ c ∧ c ≤ hi) :
      c - sub < 128 := by
    have hle := UInt8.le_trans hlo hc.1
    have hlt := UInt8.lt_of_le_of_lt hc.2 hhi
    rw [UInt8.lt_iff_toNat_lt] at hlt ⊢
    rw [UInt8.toNat_sub_of_le _ _ hle]
    omega
  unfold Ranges.quintet
  split_ifs with hfirst hsecond
  · exact hsub h.r1Hi_lt h.r1Sub_le hfirst
  · exact hsub h.r2Hi_lt h.r2Sub_le hsecond
  · decide

theorem cmpgt_quintet (h : r.Small) (c : UInt8) :
    (cmpgt (r.quintet c) 31 != 0) = decide ¬r.quintet c < 32 := by
  have hlt := UInt8.lt_iff_toNat_lt.mp (h.quintet_lt c)
  change (r.quintet c).toNat < 128 at hlt
  have hgt : (31 : UInt8).toInt8 < (r.quintet c).toInt8 ↔ ¬r.quintet c < 32 := by
    rw [toInt8_lt, UInt8.lt_iff_toNat_lt]
    change ((31 : Nat) : Int).bmod 256 < _ ↔ ¬(r.quintet c).toNat < 32
    simp only [Int.bmod]
    omega
  by_cases hq : r.quintet c < 32
  · rw [cmpgt, decide_eq_false (fun h => hgt.mp h hq), decide_eq_false (not_not_intro hq)]
    rfl
  · rw [cmpgt, decide_eq_true (hgt.mpr hq), decide_eq_true hq]
    rfl

theorem Neon.charToQuintet_eq (h : ranges? alphabet = some r) (c : UInt8) :
    Neon.charToQuintet r c = Base32.charToQuintet c alphabet :=
  (Neon.charToQuintet_quintet r c).trans (Base32.charToQuintet_quintet h c).symm

theorem Avx2.charToQuintet_eq (h : ranges? alphabet = some r) (c : UInt8) :
    Avx2.charToQuintet r c = Base32.charToQuintet c alphabet :=
  (Avx2.charToQuintet_quintet (small_of_ranges? h) c).trans (Base32.charToQuintet_quintet h c).symm

theorem cmpgt_charToQuintet (h : ranges? alphabet = some r) (c : UInt8) :
    (cmpgt (charToQuintet c alphabet) 31 != 0) = decide ¬charToQuintet c alphabet < 32 := by
  rw [charToQuintet_quintet h]
  exact cmpgt_quintet (small_of_ranges? h) c

theorem decodeLane_eq (h : g.length = 8) :
    decodeLane (charToQuintet · alphabet) g = decodeGroup alphabet g := by
  obtain ⟨c0, c1, c2, c3, c4, c5, c6, c7, rfl⟩ := eq_of_length_eight h
  rw [decodeGroup_eq, decodeLane]
  simp only [ge_iff_le, ← UInt8.not_lt, ite_not]
  rfl

theorem Avx2.decodeLane_eq {r : Ranges} (hr : ranges? alphabet = some r) (h : g.length = 8) :
    Avx2.decodeLane r g = decodeGroup alphabet g := by
  obtain ⟨c0, c1, c2, c3, c4, c5, c6, c7, rfl⟩ := eq_of_length_eight h
  rw [decodeGroup_eq, Avx2.decodeLane]
  simp only [Avx2.charToQuintet_eq hr, cmpgt_charToQuintet hr, List.any_cons,
    List.any_nil, Bool.or_false, Bool.or_eq_true, decide_eq_true_eq, or_lt_32]
  by_cases hvalid : Base32.charToQuintet c0 alphabet < 32 ∧ Base32.charToQuintet c1 alphabet < 32 ∧
      Base32.charToQuintet c2 alphabet < 32 ∧ Base32.charToQuintet c3 alphabet < 32 ∧
      Base32.charToQuintet c4 alphabet < 32 ∧ Base32.charToQuintet c5 alphabet < 32 ∧
      Base32.charToQuintet c6 alphabet < 32 ∧ Base32.charToQuintet c7 alphabet < 32
  · rw [if_neg (by tauto), if_pos (by tauto)]
    rfl
  · rw [if_pos (by tauto), if_neg (by tauto)]

end Lanes

/-! ## Texts by groups -/

section Groups

variable (alphabet : Alphabet)

theorem encodeText_groups {count : Nat} {data : Bytes} (h : 5 * count ≤ data.length) :
    encodeText alphabet data = mapGroups 5 (encodeGroup alphabet) count data ++
      encodeText alphabet (data.drop (5 * count)) :=
  eq_mapGroups_append (fun rest hfront => encodeText_append alphabet hfront rest) h

theorem decodeText_groups {count : Nat} {content : Bytes} (h : 8 * count ≤ content.length) :
    decodeText alphabet content = (do
      let front ← inGroups 8 (decodeGroup alphabet) count content
      let back ← decodeText alphabet (content.drop (8 * count))
      some (front ++ back)) :=
  eq_inGroups_bind (fun rest hfront => decodeText_append alphabet hfront rest) h

end Groups

/-! ## Encoding -/

section Encoder

variable {alphabet : Alphabet}

theorem completed_append {front : Bytes} (h : front.length % 8 = 0) (back : Bytes) :
    completed alphabet (front ++ back) = front ++ completed alphabet back := by
  have hlength : (front.length + back.length) % 8 = back.length % 8 := by omega
  unfold completed padding
  rw [List.length_append, hlength]
  split
  · rw [List.append_assoc]
  · rfl

theorem paddedText_groups {count : Nat} {data : Bytes} (h : 5 * count ≤ data.length) :
    paddedText alphabet data = mapGroups 5 (encodeGroup alphabet) count data ++
      paddedText alphabet (data.drop (5 * count)) := by
  have hstored := mapGroups_length (f := encodeGroup alphabet) (m := 8) h fun g hg => by
    rw [encodeGroup_length alphabet (by omega), hg]
    rfl
  rw [← completed_encodeText, ← completed_encodeText, ← completed_append (by omega),
    ← encodeText_groups alphabet h]

theorem Encodable.rest {T : Target} {n m : Nat} (h : Encodable T alphabet n) (hle : m ≤ n)
    (hmod : m % 5 = n % 5) : Encodable T alphabet m := by
  rcases h with hpadded | hwhole | hbits
  · exact .inl hpadded
  · exact .inr (.inl (by omega))
  · exact .inr (.inr (by omega))

theorem encodeRest_eq (T : Target) {output rest : Bytes}
    (hfits : rest.length < 2 ^ (T.usizeBits - 1)) (hencodable : Encodable T alphabet rest.length)
    (hsize : output.length = (paddedText alphabet rest).length) :
    encodeRest T alphabet output rest = some (.ok (), paddedText alphabet rest) := by
  have hexpected := encodedLength_eq alphabet T hfits
  rw [if_pos hencodable] at hexpected
  obtain ⟨written, hrun, htake, hlength⟩ := encodeIntoConstantTime_eq alphabet T hfits hencodable
    (Nat.le_of_eq hsize.symm)
  rw [← hsize, ← hlength, List.take_length] at htake
  by_cases hsome : rest.length > 0
  · simp only [encodeRest, if_pos hsome, hexpected, Option.bind_eq_bind, Option.bind_some]
    rw [← hsize, List.take_length, List.drop_length, hrun, htake]
    simp
  · obtain rfl : rest = [] := List.length_eq_zero_iff.mp (by omega)
    have hnil : paddedText alphabet [] = [] := by
      simp [paddedText, encodeText, encodeGroup, charactersOf, padding]
    rw [hnil] at hsize ⊢
    rw [encodeRest, if_neg hsome, List.length_eq_zero_iff.mp hsize]

/-- A loop over blocks of `m` groups, on a buffer of the length of the text. -/
theorem encodeRounds_eq {m : Nat} {lane : Bytes → Bytes}
    {next : Bytes → Bytes → Option (Except EncodeError Unit × Bytes)} {output data text : Bytes}
    (hlane : ∀ g : Bytes, g.length = 5 → (lane g).length = 8)
    (hsize : output.length = (paddedText alphabet data).length)
    (hnext : ∀ out : Bytes, out.length =
        (paddedText alphabet (data.drop (5 * (m * (data.length / (5 * m)))))).length →
      next out (data.drop (5 * (m * (data.length / (5 * m))))) = some (.ok (), text)) :
    encodeRounds (5 * m) lane next output data =
      some (.ok (), mapGroups 5 lane (m * (data.length / (5 * m))) data ++ text) := by
  obtain ⟨rounds, hrounds⟩ : ∃ rounds, data.length / (5 * m) = rounds := ⟨_, rfl⟩
  have hle : 5 * (m * rounds) ≤ data.length := by
    rw [← hrounds, ← Nat.mul_assoc]
    exact Nat.mul_div_le _ _
  have hstored := mapGroups_length (f := lane) hle hlane
  have htext : (paddedText alphabet data).length = _ := congrArg List.length (paddedText_groups hle)
  rw [List.length_append, mapGroups_length (m := 8) hle fun g hg => by
    rw [encodeGroup_length alphabet (by omega), hg]
    rfl] at htext
  rw [hrounds] at hnext ⊢
  simp only [encodeRounds, Nat.mul_div_cancel_left m (by decide : 0 < 5), mapGroups_mapGroups,
    hrounds, Nat.mul_assoc]
  rw [hnext _ (by rw [List.length_drop, hstored]; omega)]
  rfl

theorem drop_fits {T : Target} {data : Bytes} (k : Nat)
    (hfits : data.length < 2 ^ (T.usizeBits - 1)) :
    (data.drop k).length < 2 ^ (T.usizeBits - 1) := by
  rw [List.length_drop]
  omega

theorem Encodable.drop {T : Target} {data : Bytes} {k : Nat}
    (h : Encodable T alphabet data.length) (hle : 5 * k ≤ data.length) :
    Encodable T alphabet (data.drop (5 * k)).length :=
  h.rest (by rw [List.length_drop]; omega) (by rw [List.length_drop]; omega)

theorem mul_rounds_le (m n : Nat) : 5 * (m * (n / (5 * m))) ≤ n := by
  rw [← Nat.mul_assoc]
  exact Nat.mul_div_le _ _

/-- A loop of the NEON kernel writes the text, if what follows does. -/
theorem Neon.encodeRounds_eq (T : Target) {m : Nat}
    {next : Bytes → Bytes → Option (Except EncodeError Unit × Bytes)}
    (hnext : ∀ output rest : Bytes, rest.length < 2 ^ (T.usizeBits - 1) →
      Encodable T alphabet rest.length → output.length = (paddedText alphabet rest).length →
      next output rest = some (.ok (), paddedText alphabet rest))
    (output data : Bytes) (hfits : data.length < 2 ^ (T.usizeBits - 1))
    (hencodable : Encodable T alphabet data.length)
    (hsize : output.length = (paddedText alphabet data).length) :
    encodeRounds (5 * m) (encodeLane Neon.vtbl alphabet) next output data =
      some (.ok (), paddedText alphabet data) := by
  have hle := mul_rounds_le m data.length
  have hrest (out : Bytes) (hout : out.length =
      (paddedText alphabet (data.drop (5 * (m * (data.length / (5 * m)))))).length) :=
    hnext out _ (drop_fits _ hfits) (hencodable.drop hle) hout
  have hrun := Base32.encodeRounds_eq (fun g => encodeLane_length alphabet Neon.vtbl) hsize hrest
  have hsame := (mapGroups_eq_iff hle (fun g => encodeLane_length alphabet Neon.vtbl)
    (fun g hg => by rw [encodeGroup_length alphabet (by omega), hg]; rfl)).mpr fun i hi =>
      Neon.encodeLane_eq (group_length (by omega))
  rw [hrun, hsame, ← paddedText_groups hle]

theorem Neon.encodeInto_eq (T : Target) {output data : Bytes}
    (hfits : data.length < 2 ^ (T.usizeBits - 1)) (hencodable : Encodable T alphabet data.length)
    (hsize : output.length = (paddedText alphabet data).length) :
    Neon.encodeInto T output data alphabet = some (.ok (), paddedText alphabet data) :=
  Neon.encodeRounds_eq T (m := 4)
    (Neon.encodeRounds_eq T (m := 2)
      (Neon.encodeRounds_eq T (m := 1) fun _ _ => encodeRest_eq T))
    output data hfits hencodable hsize

/-- The groups of the input that the AVX2 kernel writes. -/
def encodeGroups (unit : VectorUnit) (length : Nat) : Nat :=
  match unit with
  | .avx2 => 8 * (length / 40)
  | .neon | .simd128 | .scalar => 0

theorem encodeGroups_le (unit : VectorUnit) (length : Nat) :
    5 * encodeGroups unit length ≤ length := by
  cases unit <;> simp only [encodeGroups] <;> omega

/-- The text a build writes for `data`, without the padding. -/
def writtenText (unit : VectorUnit) (alphabet : Alphabet) (data : Bytes) : Bytes :=
  mapGroups 5 (encodeLane Avx2.vtbl alphabet) (encodeGroups unit data.length) data ++
    encodeText alphabet (data.drop (5 * encodeGroups unit data.length))

theorem Avx2.encodeInto_eq (T : Target) {output data : Bytes}
    (hfits : data.length < 2 ^ (T.usizeBits - 1)) (hencodable : Encodable T alphabet data.length)
    (hsize : output.length = (paddedText alphabet data).length) :
    Avx2.encodeInto T output data alphabet =
      some (.ok (), completed alphabet (writtenText .avx2 alphabet data)) := by
  have hle := mul_rounds_le 8 data.length
  have hrest (out : Bytes) (hout : out.length =
      (paddedText alphabet (data.drop (5 * (8 * (data.length / (5 * 8)))))).length) :=
    encodeRest_eq T (drop_fits _ hfits) (hencodable.drop hle) hout
  have hrun := encodeRounds_eq (fun g => encodeLane_length alphabet Avx2.vtbl) hsize hrest
  have hstored := mapGroups_length hle fun g =>
    encodeLane_length alphabet Avx2.vtbl
  rw [← completed_encodeText, ← completed_append (by omega)] at hrun
  exact hrun

theorem writtenText_of_groups {unit : VectorUnit} {data : Bytes}
    (h : encodeGroups unit data.length = 0) :
    writtenText unit alphabet data = encodeText alphabet data := by
  simp [writtenText, h, mapGroups]

variable (alphabet) in
theorem encode_eq (unit : VectorUnit) (T : Target) {data : Bytes}
    (hfits : data.length < 2 ^ (T.usizeBits - 1)) :
    encode unit T data alphabet =
      if Encodable T alphabet data.length then
        some (completed alphabet (writtenText unit alphabet data))
      else none := by
  have hexpected := encodedLength_eq alphabet T hfits
  split
  · next hencodable =>
    rw [if_pos hencodable] at hexpected
    obtain ⟨output, houtput⟩ : ∃ output : Bytes,
      List.replicate (paddedText alphabet data).length 0 = output := ⟨_, rfl⟩
    have hsize : output.length = (paddedText alphabet data).length := by simp [← houtput]
    obtain ⟨written, hscalar, htake, hlength⟩ :=
      encodeIntoConstantTime_eq alphabet T hfits hencodable (Nat.le_of_eq hsize.symm)
    rw [← hsize, ← hlength, List.take_length] at htake
    subst htake
    have hplain (h : encodeGroups unit data.length = 0) :
        completed alphabet (writtenText unit alphabet data) = paddedText alphabet data := by
      rw [writtenText_of_groups h]
      rfl
    have hrun : encodeInto unit T output data alphabet =
        some (.ok (), completed alphabet (writtenText unit alphabet data)) := by
      simp only [encodeInto, hexpected, hsize, Nat.lt_irrefl, if_false, Option.bind_eq_bind,
        Option.bind_some]
      cases unit with
      | scalar | simd128 => rw [hplain rfl, hscalar]
      | neon =>
        rw [hplain rfl]
        simp only
        split
        · exact Neon.encodeInto_eq T hfits hencodable hsize
        · exact hscalar
      | avx2 =>
        simp only
        split
        · exact Avx2.encodeInto_eq T hfits hencodable hsize
        · next hshort =>
          rw [hplain (by simp only [encodeGroups]; omega), hscalar]
    simp [encode, hexpected, houtput, hrun]
  · next hencodable =>
    rw [if_neg hencodable] at hexpected
    simp [encode, hexpected]

/-- No quintet 15 in the groups that the AVX2 kernel writes. -/
def WritesText (unit : VectorUnit) (data : Bytes) : Prop :=
  ∀ i < encodeGroups unit data.length, 15 ∉ quintets (group 5 i data)

variable (alphabet) in
theorem writtenText_eq_iff (unit : VectorUnit) (data : Bytes) :
    writtenText unit alphabet data = encodeText alphabet data ↔ WritesText unit data := by
  have hle := encodeGroups_le unit data.length
  rw [encodeText_groups alphabet hle, writtenText, List.append_left_inj,
    mapGroups_eq_iff hle (fun g => encodeLane_length alphabet Avx2.vtbl)
      (fun g hg => by rw [encodeGroup_length alphabet (by omega), hg]; rfl)]
  exact forall₂_congr fun i hi => Avx2.encodeLane_eq_iff (group_length (by omega))

theorem writtenText_length (unit : VectorUnit) (data : Bytes) :
    (writtenText unit alphabet data).length = (encodeText alphabet data).length := by
  have hle := encodeGroups_le unit data.length
  rw [encodeText_groups alphabet hle, writtenText, List.length_append, List.length_append,
    mapGroups_length hle fun g => encodeLane_length alphabet Avx2.vtbl,
    mapGroups_length (m := 8) hle fun g hg => by
      rw [encodeGroup_length alphabet (by omega), hg]
      rfl]

end Encoder

/-! ## Decoding -/

section Decoder

variable {alphabet : Alphabet}

theorem decodeGroup_length {g out : Bytes} (h : g.length = 8)
    (hgroup : decodeGroup alphabet g = some out) : out.length = 5 := by
  rw [(encodeGroup_of_decodeGroup alphabet (by omega) hgroup).2, h]
  rfl

theorem decodeRounds_eq {m : Nat} {lane : Bytes → Option Bytes} {content output : Bytes}
    (hlane : ∀ g : Bytes, g.length = 8 → lane g = decodeGroup alphabet g)
    (hplain : EndsPlain PAD content)
    (heven : charactersOf (octetsOf content.length) = content.length)
    (hroom : octetsOf content.length ≤ output.length) :
    ∃ out, out.length = output.length ∧
      (decodeText alphabet content = some (out.take (octetsOf content.length)) ∧
          decodeRounds (8 * m) lane output content alphabet = (.ok (), out)) ∨
      (decodeText alphabet content = none ∧
          decodeRounds (8 * m) lane output content alphabet = (.error .invalidInput, out)) := by
  obtain ⟨rounds, hrounds⟩ : ∃ rounds, content.length / (8 * m) = rounds := ⟨_, rfl⟩
  have hle : 8 * (m * rounds) ≤ content.length := by
    rw [← hrounds, ← Nat.mul_assoc]
    exact Nat.mul_div_le _ _
  have hloop := vectorLoop_eq (8 * m) (inGroups 8 lane m) rounds content
  have hsame : inGroups 8 lane (m * rounds) content =
      inGroups 8 (decodeGroup alphabet) (m * rounds) content :=
    inGroups_congr hle fun i hi => hlane _ (group_length (by omega))
  rw [inGroups_inGroups, Nat.mul_assoc, hsame] at hloop
  simp only [decodeRounds, Nat.mul_div_cancel_left m (by decide : 0 < 8), hrounds]
  rw [decodeText_groups alphabet hle]
  cases hfront : inGroups 8 (decodeGroup alphabet) (m * rounds) content with
  | none =>
    rw [hfront] at hloop
    simp only at hloop
    revert hloop
    cases vectorLoop (8 * m) (inGroups 8 lane m) rounds content with
    | mk stored left =>
      rintro rfl
      exact ⟨_, .inr ⟨rfl, rfl⟩⟩
  | some front =>
    rw [hfront] at hloop
    simp only at hloop
    rw [hloop]
    have hlength := inGroups_length hle (fun g out => decodeGroup_length) hfront
    obtain ⟨rest, hrest⟩ : ∃ rest, content.drop (8 * (m * rounds)) = rest := ⟨_, rfl⟩
    have hdrop : rest.length = content.length - 8 * (m * rounds) := by
      rw [← hrest, List.length_drop]
    have hoctets : octetsOf content.length = 5 * (m * rounds) + octetsOf rest.length := by
      unfold octetsOf
      omega
    have heven' : charactersOf (octetsOf rest.length) = rest.length := by
      unfold charactersOf octetsOf at *
      omega
    have hplain' : EndsPlain PAD rest := hrest ▸ hplain.drop _
    simp only [hrest, hlength]
    by_cases hsome : rest.length > 0
    · have hcount : max (rest.length * 5 / 8) 1 = octetsOf rest.length := by
        unfold octetsOf charactersOf at *
        omega
      have hstrip : stripPaddingInfo rest alphabet.isPadded = .ok (rest.length, 0) :=
        stripPaddingInfo_of_plain hplain'
      have hback : octetsOf rest.length ≤
          ((output.drop (5 * (m * rounds))).take (octetsOf rest.length)).length := by
        rw [List.length_take, List.length_drop]
        omega
      obtain ⟨out', hsize, hrun⟩ := decodeIntoConstantTime_eq hstrip
        (by simpa using contentOf_append rest []) heven' hback
      rw [List.length_take_of_le (by rw [List.length_drop]; omega)] at hsize
      rw [List.take_of_length_le hsize.le] at hrun
      rw [if_pos hsome, hcount]
      rcases hrun with ⟨htext, hrun⟩ | ⟨htext, hrun⟩
      · refine ⟨_, .inl ⟨?_, ?_, by rw [hrun]⟩⟩
        · rw [List.length_append, List.length_append, List.length_drop, List.length_drop,
            hlength, hsize]
          omega
        · rw [htext, List.take_left' (by rw [List.length_append, hlength, hsize, hoctets])]
          rfl
      · exact ⟨_, .inr ⟨by rw [htext]; rfl, by rw [hrun]⟩⟩
    · obtain rfl : rest = [] := List.length_eq_zero_iff.mp (by omega)
      have hzero : octetsOf ([] : Bytes).length = 0 := rfl
      rw [if_neg hsome]
      refine ⟨_, .inl ⟨?_, ?_, rfl⟩⟩
      · rw [List.length_append, List.length_drop]
        omega
      · rw [List.take_left' (by omega)]
        simp [decodeText, decodeGroup, values, octets, octetsOf, charactersOf]

theorem Neon.decodeInto_rounds (output content : Bytes) (alphabet : Alphabet) :
    ∃ m lane, Neon.decodeInto output content alphabet =
        decodeRounds (8 * m) lane output content alphabet ∧
      ∀ g : Bytes, g.length = 8 → lane g = decodeGroup alphabet g := by
  unfold Neon.decodeInto
  cases hr : ranges? alphabet with
  | none => exact ⟨1, _, rfl, fun g => decodeLane_eq⟩
  | some r =>
    refine ⟨1, _, rfl, fun g hg => ?_⟩
    rw [← decodeLane_eq hg]
    exact congrFun (congrArg decodeLane (funext (Neon.charToQuintet_eq hr))) g

theorem Avx2.decodeInto_rounds (output content : Bytes) (alphabet : Alphabet) :
    ∃ m lane, Avx2.decodeInto output content alphabet =
        decodeRounds (8 * m) lane output content alphabet ∧
      ∀ g : Bytes, g.length = 8 → lane g = decodeGroup alphabet g := by
  unfold Avx2.decodeInto
  cases hr : ranges? alphabet with
  | none => exact ⟨1, _, rfl, fun g => Base32.decodeLane_eq⟩
  | some r => exact ⟨4, _, rfl, fun g => Avx2.decodeLane_eq hr⟩

theorem decode_of_strip (unit : VectorUnit) {text : Bytes} {contentLen padCount : Nat}
    (hstrip : stripPaddingInfo text alphabet.isPadded = .ok (contentLen, padCount))
    (heven : charactersOf (octetsOf contentLen) = contentLen) :
    decode unit text alphabet =
      match decodeText alphabet (text.take contentLen) with
      | some data => .ok data
      | none => .error .invalidInput := by
  have hle := (stripPaddingInfo_content hstrip).1
  have hlen : (text.take contentLen).length = contentLen := List.length_take_of_le hle
  obtain ⟨output, houtput⟩ : ∃ output : Bytes,
    List.replicate (octetsOf contentLen) 0 = output := ⟨_, rfl⟩
  have hsize : output.length = octetsOf contentLen := by simp [← houtput]
  have hscalar : ∃ out : Bytes,
      decodeText alphabet (text.take contentLen) = some out ∧
          decodeIntoConstantTime output text alphabet = (.ok (), out) ∨
        decodeText alphabet (text.take contentLen) = none ∧
          decodeIntoConstantTime output text alphabet = (.error .invalidInput, out) := by
    rw [← hlen] at hstrip
    have hroom : octetsOf (text.take contentLen).length ≤ output.length := by rw [hlen, hsize]
    obtain ⟨out, hlength, hrun⟩ :=
      decodeIntoConstantTime_eq hstrip (contentOf_take hle) (by rwa [hlen]) hroom
    rw [hlen, List.take_of_length_le (by omega : out.length ≤ octetsOf contentLen)] at hrun
    exact ⟨out, hrun⟩
  have hrounds {m : Nat} {lane : Bytes → Option Bytes}
      (hlane : ∀ g : Bytes, g.length = 8 → lane g = decodeGroup alphabet g) : ∃ out : Bytes,
      decodeText alphabet (text.take contentLen) = some out ∧
          decodeRounds (8 * m) lane output (text.take contentLen) alphabet = (.ok (), out) ∨
        decodeText alphabet (text.take contentLen) = none ∧
          decodeRounds (8 * m) lane output (text.take contentLen) alphabet =
            (.error .invalidInput, out) := by
    have hroom : octetsOf (text.take contentLen).length ≤ output.length := by rw [hlen, hsize]
    obtain ⟨out, ⟨hlength, htext, hrun⟩ | hrun⟩ :=
      decodeRounds_eq hlane (stripPaddingInfo_plain hstrip) (by rwa [hlen]) hroom
    · rw [hlen, List.take_of_length_le (by omega : out.length ≤ octetsOf contentLen)] at htext
      exact ⟨out, .inl ⟨htext, hrun⟩⟩
    · exact ⟨out, .inr hrun⟩
  have hinto : ∃ out : Bytes,
      decodeText alphabet (text.take contentLen) = some out ∧
          decodeInto unit output text alphabet = (.ok (), out) ∨
        decodeText alphabet (text.take contentLen) = none ∧
          decodeInto unit output text alphabet = (.error .invalidInput, out) := by
    simp only [decodeInto, hstrip, decodedLength_eq heven, hsize, Nat.lt_irrefl, if_false]
    cases unit with
    | scalar | simd128 => exact hscalar
    | neon =>
      simp only
      split
      · obtain ⟨m, lane, hrun, hlane⟩ :=
          Neon.decodeInto_rounds output (text.take contentLen) alphabet
        rw [hrun]
        exact hrounds hlane
      · exact hscalar
    | avx2 =>
      simp only
      split
      · obtain ⟨m, lane, hrun, hlane⟩ :=
          Avx2.decodeInto_rounds output (text.take contentLen) alphabet
        rw [hrun]
        exact hrounds hlane
      · exact hscalar
  simp only [decode, hstrip, decodedLength_eq heven, bind, Except.bind, houtput]
  obtain ⟨out, ⟨htext, hrun⟩ | ⟨htext, hrun⟩⟩ := hinto
  · rw [hrun, htext]
  · rw [hrun, htext]

theorem decode_eq_scalar (unit : VectorUnit) (text : Bytes) (alphabet : Alphabet) :
    decode unit text alphabet = decode .scalar text alphabet := by
  cases hstrip : stripPaddingInfo text alphabet.isPadded with
  | error error => simp [decode, hstrip, bind, Except.bind]
  | ok result =>
    obtain ⟨contentLen, padCount⟩ := result
    cases hdecoded : decodedLength contentLen with
    | error error => simp [decode, hstrip, hdecoded, bind, Except.bind]
    | ok computed =>
      have heven := (decodedLength_ok hdecoded).2
      rw [decode_of_strip unit hstrip heven, decode_of_strip .scalar hstrip heven]

theorem decodeText_of_decode {unit : VectorUnit} {data decoded : Bytes}
    (h : decode unit data alphabet = .ok decoded) :
    ∃ contentLen padCount,
      stripPaddingInfo data alphabet.isPadded = .ok (contentLen, padCount) ∧
      decodeText alphabet (data.take contentLen) = some decoded ∧
      decoded.length ≤ data.length := by
  cases hstrip : stripPaddingInfo data alphabet.isPadded with
  | error error => simp [decode, hstrip, bind, Except.bind] at h
  | ok result =>
    obtain ⟨contentLen, padCount⟩ := result
    cases hdecoded : decodedLength contentLen with
    | error error => simp [decode, hstrip, hdecoded, bind, Except.bind] at h
    | ok computed =>
      rw [decode_of_strip unit hstrip (decodedLength_ok hdecoded).2] at h
      cases htext : decodeText alphabet (data.take contentLen) with
      | none => simp [htext] at h
      | some octets =>
        obtain rfl : octets = decoded := by simpa [htext] using h
        refine ⟨contentLen, padCount, rfl, htext, ?_⟩
        have hlength := congrArg List.length (encodeText_of_decodeText alphabet htext)
        rw [encodeText_length, List.length_take, charactersOf] at hlength
        omega

end Decoder

end Stdx.Base32
