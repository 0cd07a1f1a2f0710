import Stdx.Base64.Text

/-!
# The in-place loops compute the text codec

Both coders keep the same kind of invariant: the text of the whole input is what
has been written so far, followed by the text of what has not been read yet.
-/

namespace Stdx.Base64

open Stdx.Foundation

theorem take_set_succ {output : Bytes} {o : Nat} (x : UInt8)
    (h : o < output.length) :
    (output.set o x).take (o + 1) = output.take o ++ [x] := by
  rw [List.take_succ_eq_append_getElem (by simpa using h),
    List.take_set_of_le (Nat.le_refl o)]
  simp

section Encoder

variable (alphabet : Alphabet)

def padding (length : Nat) : Bytes := List.replicate ((4 - length % 4) % 4) pad

def paddedText (data : Bytes) : Bytes :=
  let text := encodeText alphabet data
  if alphabet.isPadded then text ++ padding text.length else text

@[simp] theorem putQuad_length (b0 b1 b2 : UInt8) (o : Nat) (output : Bytes) :
    (putQuad alphabet b0 b1 b2 o output).length = output.length := by
  simp [putQuad]

theorem putQuad_take {b0 b1 b2 : UInt8} {o : Nat} {output : Bytes}
    (h : o + 4 ≤ output.length) :
    (putQuad alphabet b0 b1 b2 o output).take (o + 4) =
      output.take o ++ quad alphabet b0 b1 b2 := by
  unfold putQuad
  rw [take_set_succ _ (by simp; omega), take_set_succ _ (by simp; omega),
    take_set_succ _ (by simp; omega), take_set_succ _ (by omega)]
  simp [quad]

/-- After `i` octets, with room left for the text of the others. -/
structure EncodeInv (data : Bytes) (size i : Nat) (output : Bytes) : Prop where
  le : i ≤ data.length
  aligned : i % 3 = 0
  length_eq : output.length = size
  room : i / 3 * 4 + (encodeText alphabet (data.drop i)).length ≤ size
  text_eq : encodeText alphabet data =
    output.take (i / 3 * 4) ++ encodeText alphabet (data.drop i)

variable {alphabet}

theorem drop_eq_three {data : Bytes} {i : Nat} (h : i + 3 ≤ data.length) :
    data.drop i = data.getD i 0 :: data.getD (i + 1) 0 :: data.getD (i + 2) 0 ::
      data.drop (i + 3) := by
  rw [List.drop_eq_getElem_cons (by omega),
    List.drop_eq_getElem_cons (by omega : i + 1 < data.length),
    List.drop_eq_getElem_cons (by omega : i + 1 + 1 < data.length)]
  simp [List.getD_eq_getElem?_getD,
    List.getElem?_eq_getElem (by omega : i < data.length),
    List.getElem?_eq_getElem (by omega : i + 1 < data.length),
    List.getElem?_eq_getElem (by omega : i + 2 < data.length)]

theorem EncodeInv.group {data output : Bytes} {size i : Nat}
    (h : EncodeInv alphabet data size i output) (hi : i + 3 ≤ data.length) :
    EncodeInv alphabet data size (i + 3)
      (putQuad alphabet (data.getD i 0) (data.getD (i + 1) 0)
        (data.getD (i + 2) 0) (i / 3 * 4) output) := by
  have hroom := h.room
  have htext := h.text_eq
  have hindex : (i + 3) / 3 * 4 = i / 3 * 4 + 4 := by omega
  rw [drop_eq_three hi, encodeText] at hroom htext
  simp only [List.length_append, quad, List.length_cons, List.length_nil] at hroom
  refine ⟨hi, by have := h.aligned; omega, by simp [h.length_eq], by omega, ?_⟩
  rw [hindex, putQuad_take alphabet (by rw [h.length_eq]; omega), htext,
    List.append_assoc]

theorem EncodeInv.round {data output : Bytes} {size i : Nat} (count : Nat)
    (h : EncodeInv alphabet data size i output)
    (hi : i + 3 * count ≤ data.length) :
    EncodeInv alphabet data size (i + 3 * count)
      (forRange 0 count (encodeGroup alphabet data i) output) := by
  have haligned := h.aligned
  have hstart : EncodeInv alphabet data size (i + 3 * 0) output := by simpa using h
  have hrule := forRange_rule (l := 0) (n := count)
    (f := encodeGroup alphabet data i)
    (I := fun k out => EncodeInv alphabet data size (i + 3 * k) out)
    (fun k out _ hk hinv => ?_) hstart
  · simpa using hrule
  · have hnext := hinv.group (by omega)
    have hindex : (i + 3 * k) / 3 * 4 = i / 3 * 4 + 4 * k := by omega
    rw [hindex] at hnext
    exact hnext

theorem EncodeInv.blocks {data : Bytes} {size : Nat} {s : Nat × Bytes}
    (count : Nat) (hcount : 0 < count)
    (h : EncodeInv alphabet data size s.1 s.2) :
    EncodeInv alphabet data size (encodeBlocks alphabet data count s).1
        (encodeBlocks alphabet data count s).2 ∧
      ¬ (encodeBlocks alphabet data count s).1 + 3 * count ≤ data.length := by
  obtain ⟨hinv, hexit⟩ := whileLoop_rule
    (c := fun s => decide (s.1 + 3 * count ≤ data.length))
    (f := fun s => (s.1 + 3 * count,
      forRange 0 count (encodeGroup alphabet data s.1) s.2))
    (I := fun s => EncodeInv alphabet data size s.1 s.2)
    (fun s => data.length - s.1)
    (fun s hinv hcond => by
      simp only [decide_eq_true_eq] at hcond
      exact ⟨hinv.round count hcond, by simp only; omega⟩)
    (k := data.length + 1) h (by omega)
  exact ⟨hinv, of_decide_eq_false hexit⟩

private theorem maskOf_true (x y : UInt8) :
    (x &&& maskOf true) ||| (y &&& maskOf false) = x := by
  apply octet_ext
  intro i hi
  simp [maskOf]

private theorem maskOf_false (x y : UInt8) :
    (x &&& maskOf false) ||| (y &&& maskOf true) = y := by
  apply octet_ext
  intro i hi
  simp [maskOf]

theorem drop_eq_singleton {data : Bytes} {i : Nat}
    (h : i + 1 = data.length) : data.drop i = [data.getD i 0] := by
  rw [List.drop_eq_getElem_cons (by omega), List.drop_of_length_le (by omega)]
  simp [List.getD_eq_getElem?_getD,
    List.getElem?_eq_getElem (by omega : i < data.length)]

theorem drop_eq_pair {data : Bytes} {i : Nat} (h : i + 2 = data.length) :
    data.drop i = [data.getD i 0, data.getD (i + 1) 0] := by
  rw [List.drop_eq_getElem_cons (by omega), drop_eq_singleton (by omega)]
  simp [List.getD_eq_getElem?_getD,
    List.getElem?_eq_getElem (by omega : i < data.length)]

private theorem eq_append_of_take {output front back : Bytes} {n : Nat}
    (htake : output.take n = front ++ back) (hlength : output.length = n) :
    output = front ++ back := by
  rw [← htake, List.take_of_length_le (by omega)]

theorem encodeTail_eq {data output : Bytes} {i : Nat}
    (h : EncodeInv alphabet data (paddedText alphabet data).length i output)
    (hexit : ¬ i + 3 ≤ data.length) :
    encodeTail alphabet data i output = paddedText alphabet data := by
  have hle := h.le
  have haligned := h.aligned
  have htext := h.text_eq
  have hlength := h.length_eq
  have hremaining : data.length - i = 0 ∨ data.length - i = 1 ∨
      data.length - i = 2 := by omega
  have htextLength := encodeText_length alphabet data
  rcases hremaining with h0 | h1 | h2
  · have hi : i = data.length := by omega
    have hmod : data.length % 3 = 0 := by omega
    have hpadded : paddedText alphabet data = encodeText alphabet data := by
      unfold paddedText padding
      simp only
      split
      · rw [htextLength, hmod]
        simp
      · rfl
    rw [hpadded] at hlength ⊢
    rw [List.drop_of_length_le (by omega), encodeText, List.append_nil] at htext
    simp only [hmod, if_true] at htextLength
    simp only [encodeTail, h0, gt_iff_lt, lt_self_iff_false, if_false]
    rw [htext, List.take_of_length_le (by omega)]
  · have hdrop := drop_eq_singleton (by omega : i + 1 = data.length)
    rw [hdrop, encodeText] at htext
    have hmod : data.length % 3 = 1 := by omega
    have hdiv : data.length / 3 = i / 3 := by omega
    rw [hmod, hdiv, if_neg (by omega)] at htextLength
    simp only [encodeTail, h1, gt_iff_lt, Nat.lt_one_iff, if_true,
      decide_true, show ¬ (1 = 2) by omega, decide_false, if_false, maskOf_true]
    by_cases hpad : alphabet.isPadded
    · have hpadded : paddedText alphabet data =
          encodeText alphabet data ++ [pad, pad] := by
        have hcount : (i / 3 * 4 + 2) % 4 = 2 := by omega
        simp [paddedText, hpad, padding, htextLength, hcount]
      rw [hpadded] at hlength ⊢
      simp only [List.length_append, List.length_cons, List.length_nil,
        htextLength] at hlength
      simp only [hpad, if_true, htext, List.append_assoc]
      refine eq_append_of_take (n := i / 3 * 4 + 4) ?_ (by simp; omega)
      rw [take_set_succ _ (by simp; omega), take_set_succ _ (by simp; omega),
        take_set_succ _ (by simp; omega), take_set_succ _ (by omega)]
      simp
    · have hpadded : paddedText alphabet data = encodeText alphabet data := by
        simp [paddedText, hpad]
      rw [hpadded] at hlength ⊢
      simp only [hpad, htext]
      refine eq_append_of_take (n := i / 3 * 4 + 2) ?_ (by simp; omega)
      rw [if_neg (by simp), take_set_succ _ (by simp; omega),
        take_set_succ _ (by omega)]
      simp
  · have hdrop := drop_eq_pair (by omega : i + 2 = data.length)
    rw [hdrop, encodeText] at htext
    have hmod : data.length % 3 = 2 := by omega
    have hdiv : data.length / 3 = i / 3 := by omega
    have hnext : i + 1 < data.length := by omega
    rw [hmod, hdiv, if_neg (by omega)] at htextLength
    simp only [encodeTail, h2, gt_iff_lt, if_true, decide_true, show ¬ (2 = 1) by omega,
      decide_false, hnext, maskOf_false,
      Nat.zero_lt_two]
    by_cases hpad : alphabet.isPadded
    · have hpadded : paddedText alphabet data =
          encodeText alphabet data ++ [pad] := by
        have hcount : (i / 3 * 4 + 3) % 4 = 3 := by omega
        simp [paddedText, hpad, padding, htextLength, hcount]
      rw [hpadded] at hlength ⊢
      simp only [List.length_append, List.length_cons, List.length_nil,
        htextLength] at hlength
      simp only [hpad, if_true, htext, List.append_assoc]
      refine eq_append_of_take (n := i / 3 * 4 + 4) ?_ (by simp; omega)
      rw [take_set_succ _ (by simp; omega), take_set_succ _ (by simp; omega),
        take_set_succ _ (by simp; omega), take_set_succ _ (by omega)]
      simp
    · have hpadded : paddedText alphabet data = encodeText alphabet data := by
        simp [paddedText, hpad]
      rw [hpadded] at hlength ⊢
      simp only [hpad, htext]
      refine eq_append_of_take (n := i / 3 * 4 + 3) ?_ (by simp; omega)
      rw [if_neg (by simp), take_set_succ _ (by simp; omega),
        take_set_succ _ (by simp; omega), take_set_succ _ (by omega)]
      simp

variable (alphabet) in
theorem encodedLength_eq (T : Target) {data : Bytes}
    (hfits : data.length < 2 ^ (T.usizeBits - 1)) :
    encodedLength T data.length alphabet.isPadded =
      some (paddedText alphabet data).length := by
  have hpow := two_pow_usizeBits T
  have hbig := le_two_pow_usizeBits T
  have htextLength := encodeText_length alphabet data
  have hbase : ¬ data.length / 3 * 4 ≥ 2 ^ T.usizeBits := by omega
  have hmod : data.length % 3 = 0 ∨ data.length % 3 = 1 ∨ data.length % 3 = 2 := by
    omega
  simp only [encodedLength, hbase, if_false, paddedText, padding]
  rcases hmod with hmod | hmod | hmod
  · have hcount : data.length / 3 * 4 % 4 = 0 := by omega
    simp only [hmod, if_true, Nat.add_zero] at htextLength
    split <;> simp [htextLength]
  · have hcount : (data.length / 3 * 4 + 2) % 4 = 2 := by omega
    rw [hmod, if_neg (by omega)] at htextLength
    have hroom : data.length / 3 * 4 + 4 < 2 ^ T.usizeBits := by omega
    cases alphabet.isPadded <;> simp [hmod, htextLength, hcount, hroom]
  · have hcount : (data.length / 3 * 4 + 3) % 4 = 3 := by omega
    rw [hmod, if_neg (by omega)] at htextLength
    have hroom : data.length / 3 * 4 + 4 < 2 ^ T.usizeBits := by omega
    cases alphabet.isPadded <;> simp [hmod, htextLength, hcount, hroom]

variable (alphabet) in
theorem encodeIntoConstantTime_eq (T : Target) {data o : Bytes}
    (hfits : data.length < 2 ^ (T.usizeBits - 1))
    (hsize : o.length = (paddedText alphabet data).length) :
    encodeIntoConstantTime T o data alphabet =
      (.ok (), paddedText alphabet data) := by
  have hroom : (encodeText alphabet data).length ≤
      (paddedText alphabet data).length := by
    unfold paddedText
    simp only
    split <;> simp
  have hstart : EncodeInv alphabet data (paddedText alphabet data).length 0 o :=
    ⟨Nat.zero_le _, rfl, hsize, by simpa using hroom, by simp⟩
  obtain ⟨hfirst, -⟩ := EncodeInv.blocks (s := (0, o)) 8 (by omega) hstart
  obtain ⟨hsecond, hexit⟩ := hfirst.blocks 1 (by omega)
  have hcheck : checkEncodeOutputLength T o.length data.length alphabet =
      .ok () := by
    simp [checkEncodeOutputLength, encodedLength_eq alphabet T hfits, hsize]
  simp only [encodeIntoConstantTime, hcheck]
  rw [encodeTail_eq hsecond hexit]

end Encoder

section Decoder

variable {alphabet : Alphabet}

theorem or_lt_64 (x y : UInt8) : x ||| y < 64 ↔ x < 64 ∧ y < 64 := by
  simp only [UInt8.lt_iff_toNat_lt, UInt8.toNat_or]
  constructor
  · intro h
    exact ⟨lt_of_le_of_lt Nat.left_le_or h, lt_of_le_of_lt Nat.right_le_or h⟩
  · rintro ⟨hx, hy⟩
    exact Nat.or_lt_two_pow (n := 6) hx hy

theorem decodeText_quad (c0 c1 c2 c3 : UInt8) (rest : Bytes) :
    decodeText alphabet (c0 :: c1 :: c2 :: c3 :: rest) =
      if base64CharToSextet c0 alphabet ||| base64CharToSextet c1 alphabet |||
          base64CharToSextet c2 alphabet ||| base64CharToSextet c3 alphabet < 64
      then (decodeText alphabet rest).map
        ([(base64CharToSextet c0 alphabet <<< 2) |||
            (base64CharToSextet c1 alphabet >>> 4),
          (base64CharToSextet c1 alphabet <<< 4) |||
            (base64CharToSextet c2 alphabet >>> 2),
          (base64CharToSextet c2 alphabet <<< 6) |||
            base64CharToSextet c3 alphabet] ++ ·)
      else none := by
  simp only [decodeText, sextet?, or_lt_64]
  by_cases h0 : base64CharToSextet c0 alphabet < 64
  · by_cases h1 : base64CharToSextet c1 alphabet < 64
    · by_cases h2 : base64CharToSextet c2 alphabet < 64
      · by_cases h3 : base64CharToSextet c3 alphabet < 64
        · simp only [h0, h1, h2, h3, and_self, if_true, Option.bind_eq_bind,
            Option.bind_some]
          cases decodeText alphabet rest <;> simp
        · simp [h3]
      · simp [h2]
    · simp [h1]
  · simp [h0]

theorem decodeText_triple (c0 c1 c2 : UInt8) :
    decodeText alphabet [c0, c1, c2] =
      if (base64CharToSextet c0 alphabet ||| base64CharToSextet c1 alphabet |||
          base64CharToSextet c2 alphabet < 64) ∧
          base64CharToSextet c2 alphabet &&& 0x03 = 0
      then some [(base64CharToSextet c0 alphabet <<< 2) |||
            (base64CharToSextet c1 alphabet >>> 4),
          (base64CharToSextet c1 alphabet <<< 4) |||
            (base64CharToSextet c2 alphabet >>> 2)]
      else none := by
  simp only [decodeText, sextet?, or_lt_64]
  by_cases h0 : base64CharToSextet c0 alphabet < 64
  · by_cases h1 : base64CharToSextet c1 alphabet < 64
    · by_cases h2 : base64CharToSextet c2 alphabet < 64
      · by_cases h3 : base64CharToSextet c2 alphabet &&& 0x03 = 0
        · simp [h0, h1, h2, h3]
        · simp [h0, h1, h2, h3]
      · simp [h2]
    · simp [h1]
  · simp [h0]

theorem decodeText_pair (c0 c1 : UInt8) :
    decodeText alphabet [c0, c1] =
      if (base64CharToSextet c0 alphabet ||| base64CharToSextet c1 alphabet < 64) ∧
          base64CharToSextet c1 alphabet &&& 0x0f = 0
      then some [(base64CharToSextet c0 alphabet <<< 2) |||
            (base64CharToSextet c1 alphabet >>> 4)]
      else none := by
  simp only [decodeText, sextet?, or_lt_64]
  by_cases h0 : base64CharToSextet c0 alphabet < 64
  · by_cases h1 : base64CharToSextet c1 alphabet < 64
    · by_cases h2 : base64CharToSextet c1 alphabet &&& 0x0f = 0
      · simp [h0, h1, h2]
      · simp [h0, h1, h2]
    · simp [h1]
  · simp [h0]

/-- After `i` characters: below 64 the bits so far were all valid. -/
structure DecodeInv (alphabet : Alphabet) (content : Bytes) (size i o : Nat)
    (err : UInt8) (output : Bytes) : Prop where
  le : i ≤ content.length
  aligned : i % 4 = 0
  position : o = i / 4 * 3
  length_eq : output.length = size
  text_eq : decodeText alphabet content =
    if err < 64 then
      (decodeText alphabet (content.drop i)).map (output.take o ++ ·)
    else none

theorem drop_eq_four {data : Bytes} {i : Nat} (h : i + 4 ≤ data.length) :
    data.drop i = data.getD i 0 :: data.getD (i + 1) 0 :: data.getD (i + 2) 0 ::
      data.getD (i + 3) 0 :: data.drop (i + 4) := by
  rw [drop_eq_three (by omega),
    List.drop_eq_getElem_cons (by omega : i + 3 < data.length)]
  simp [List.getD_eq_getElem?_getD,
    List.getElem?_eq_getElem (by omega : i + 3 < data.length)]

variable (alphabet) in
theorem putTriple_take {d : Bytes} {i o : Nat} {s : UInt8 × Bytes}
    (h : o + 3 ≤ s.2.length) :
    (putTriple alphabet d i o s).2.take (o + 3) =
      s.2.take o ++
        [(base64CharToSextet (d.getD i 0) alphabet <<< 2) |||
            (base64CharToSextet (d.getD (i + 1) 0) alphabet >>> 4),
          (base64CharToSextet (d.getD (i + 1) 0) alphabet <<< 4) |||
            (base64CharToSextet (d.getD (i + 2) 0) alphabet >>> 2),
          (base64CharToSextet (d.getD (i + 2) 0) alphabet <<< 6) |||
            base64CharToSextet (d.getD (i + 3) 0) alphabet] := by
  unfold putTriple
  simp only
  rw [take_set_succ _ (by simp; omega), take_set_succ _ (by simp; omega),
    take_set_succ _ (by omega)]
  simp

theorem DecodeInv.group {content data output : Bytes} {size i o : Nat}
    {err : UInt8} (hdata : ∀ j, j < content.length → data.getD j 0 = content.getD j 0)
    (hroom : content.length / 4 * 3 ≤ size)
    (h : DecodeInv alphabet content size i o err output)
    (hi : i + 4 ≤ content.length) :
    DecodeInv alphabet content size (i + 4) (o + 3)
      (putTriple alphabet data i o (err, output)).1
      (putTriple alphabet data i o (err, output)).2 := by
  have haligned := h.aligned
  have hposition := h.position
  have htake := putTriple_take alphabet (d := data) (i := i)
    (o := o) (s := (err, output)) (by simp only; rw [h.length_eq]; omega)
  rw [hdata i (by omega), hdata (i + 1) (by omega), hdata (i + 2) (by omega),
    hdata (i + 3) (by omega)] at htake
  refine ⟨hi, by omega, by omega, by simp [putTriple, h.length_eq], ?_⟩
  rw [htake, h.text_eq, drop_eq_four hi, decodeText_quad]
  simp only [putTriple, hdata i (by omega), hdata (i + 1) (by omega),
    hdata (i + 2) (by omega), hdata (i + 3) (by omega), or_lt_64 err]
  split_ifs with herr hgroup hboth hboth
  · cases decodeText alphabet (content.drop (i + 4)) <;> simp
  · exact absurd ⟨herr, hgroup⟩ hboth
  · exact absurd hboth.2 hgroup
  · rfl
  · next hboth => exact absurd hboth.1 herr
  · rfl

/-- The input agrees with its content up to the padding. -/
structure ContentOf (data content : Bytes) : Prop where
  le : content.length ≤ data.length
  getD_eq : ∀ j, j < content.length → data.getD j 0 = content.getD j 0

theorem DecodeInv.round {content data : Bytes} {size : Nat} {s : DecodeState}
    (count : Nat) (hdata : ContentOf data content)
    (hroom : content.length / 4 * 3 ≤ size)
    (h : DecodeInv alphabet content size s.i s.o s.err s.output)
    (hi : s.i + 4 * count ≤ content.length) :
    DecodeInv alphabet content size (decodeRound alphabet data count s).i
      (decodeRound alphabet data count s).o
      (decodeRound alphabet data count s).err
      (decodeRound alphabet data count s).output := by
  have hstart : DecodeInv alphabet content size (s.i + 4 * 0) (s.o + 3 * 0)
      s.err s.output := by simpa using h
  have hrule := forRange_rule (l := 0) (n := count)
    (f := fun k => putTriple alphabet data (s.i + 4 * k) (s.o + 3 * k))
    (I := fun k t => DecodeInv alphabet content size (s.i + 4 * k)
      (s.o + 3 * k) t.1 t.2)
    (fun k t _ hk hinv => by
      have hnext := hinv.group hdata.getD_eq hroom (by omega)
      simpa [Nat.mul_add, Nat.add_assoc] using hnext)
    (s := (s.err, s.output)) hstart
  simpa [decodeRound] using hrule

theorem DecodeInv.blocks {content data : Bytes} {size : Nat} {s : DecodeState}
    (count : Nat) (hcount : 0 < count) (hdata : ContentOf data content)
    (hroom : content.length / 4 * 3 ≤ size)
    (h : DecodeInv alphabet content size s.i s.o s.err s.output) :
    let t := decodeBlocks alphabet data content.length count s
    DecodeInv alphabet content size t.i t.o t.err t.output ∧
      ¬ t.i + 4 * count ≤ content.length := by
  obtain ⟨hinv, hexit⟩ := whileLoop_rule
    (c := fun s => decide (s.i + 4 * count ≤ content.length))
    (f := decodeRound alphabet data count)
    (I := fun s => DecodeInv alphabet content size s.i s.o s.err s.output)
    (fun s => content.length - s.i)
    (fun s hinv hcond => by
      simp only [decide_eq_true_eq] at hcond
      exact ⟨hinv.round count hdata hroom hcond,
        by simp only [decodeRound]; omega⟩)
    (k := content.length + 1) h (by omega)
  exact ⟨hinv, of_decide_eq_false hexit⟩

private theorem and_maskOf_true (x : UInt8) : x &&& maskOf true = x := by
  apply octet_ext
  intro i hi
  simp [maskOf]

private theorem and_maskOf_false (x : UInt8) : x &&& maskOf false = 0 := by
  apply octet_ext
  intro i hi
  simp [maskOf]

private theorem trailing_lt_64 (x : UInt8) :
    (if x ≠ 0 then (1 : UInt8) else 0) <<< 6 < 64 ↔ x = 0 := by
  by_cases hx : x = 0
  · simp [hx]
  · simp only [hx, ne_eq, not_false_eq_true, if_true]
    decide

theorem decodeTail_none {data : Bytes} {contentLen : Nat} {s : DecodeState}
    (h : contentLen - s.i = 0) :
    decodeTail alphabet data contentLen s = (s.err, s.output) := by
  simp [decodeTail, h]

variable (alphabet) in
theorem decodeTail_one {d : Bytes} {contentLen : Nat} {s : DecodeState}
    (h : contentLen - s.i = 1) :
    ¬ (decodeTail alphabet d contentLen s).1 < 64 ∧
      (decodeTail alphabet d contentLen s).2.length = s.output.length := by
  have hbit : ¬ ((1 - (0 ||| 0 ||| 0 : UInt8)) <<< 6) < 64 := by decide
  simp only [decodeTail, h, gt_iff_lt, Nat.lt_one_iff, if_true,
    show ¬ (1 = 0) by omega, show ¬ (1 = 2) by omega, show ¬ (1 = 3) by omega,
    if_false, or_lt_64, hbit]
  simp

variable (alphabet) in
theorem decodeTail_two {d : Bytes} {contentLen : Nat} {s : DecodeState}
    (h : contentLen - s.i = 2) :
    let v0 := base64CharToSextet (d.getD s.i 0) alphabet
    let v1 := base64CharToSextet (d.getD (s.i + 1) 0) alphabet
    ((decodeTail alphabet d contentLen s).1 < 64 ↔
      s.err < 64 ∧ v0 ||| v1 < 64 ∧ v1 &&& 0x0f = 0) ∧
    (decodeTail alphabet d contentLen s).2 =
      s.output.set s.o ((v0 <<< 2) ||| (v1 >>> 4)) := by
  have h0 : s.i < contentLen := by omega
  have h1 : s.i + 1 < contentLen := by omega
  have h2 : ¬ s.i + 2 < contentLen := by omega
  have hmask : (0 - 1 : UInt8) = maskOf true := rfl
  have hmask' : (0 - 0 : UInt8) = maskOf false := rfl
  simp only [decodeTail, h, gt_iff_lt, Nat.zero_lt_two, if_true, h0, h1, h2,
    show ¬ (2 = 0) by omega, show ¬ (2 = 3) by omega, if_false, or_lt_64,
    decide_true, decide_false, hmask, hmask', and_maskOf_true,
    and_maskOf_false, UInt8.or_zero, trailing_lt_64]
  simp
  tauto

variable (alphabet) in
theorem decodeTail_three {d : Bytes} {contentLen : Nat} {s : DecodeState}
    (h : contentLen - s.i = 3) :
    let v0 := base64CharToSextet (d.getD s.i 0) alphabet
    let v1 := base64CharToSextet (d.getD (s.i + 1) 0) alphabet
    let v2 := base64CharToSextet (d.getD (s.i + 2) 0) alphabet
    ((decodeTail alphabet d contentLen s).1 < 64 ↔
      s.err < 64 ∧ v0 ||| v1 ||| v2 < 64 ∧ v2 &&& 0x03 = 0) ∧
    (decodeTail alphabet d contentLen s).2 =
      (s.output.set s.o ((v0 <<< 2) ||| (v1 >>> 4))).set (s.o + 1)
        ((v1 <<< 4) ||| (v2 >>> 2)) := by
  have h0 : s.i < contentLen := by omega
  have h1 : s.i + 1 < contentLen := by omega
  have h2 : s.i + 2 < contentLen := by omega
  have hmask : (0 - 1 : UInt8) = maskOf true := rfl
  have hmask' : (0 - 0 : UInt8) = maskOf false := rfl
  simp only [decodeTail, h, gt_iff_lt, Nat.zero_lt_succ, if_true, h0, h1, h2,
    show ¬ (3 = 0) by omega, show ¬ (3 = 2) by omega, if_false, or_lt_64,
    decide_true, hmask, hmask', and_maskOf_true,
    and_maskOf_false, UInt8.zero_or, trailing_lt_64]
  simp
  tauto

theorem decodeTail_spec {content data : Bytes} {size : Nat} {s : DecodeState}
    (hdata : ContentOf data content)
    (h : DecodeInv alphabet content size s.i s.o s.err s.output)
    (hexit : ¬ s.i + 4 * 1 ≤ content.length)
    (hroom : s.o + (content.length - s.i - 1) ≤ size) :
    decodeText alphabet content =
      (if (decodeTail alphabet data content.length s).1 < 64 then
        some ((decodeTail alphabet data content.length s).2.take
          (s.o + (content.length - s.i - 1)))
      else none) ∧
    (decodeTail alphabet data content.length s).2.length = size := by
  have hle := h.le
  have hlength := h.length_eq
  have hremaining : content.length - s.i = 0 ∨ content.length - s.i = 1 ∨
      content.length - s.i = 2 ∨ content.length - s.i = 3 := by omega
  rw [h.text_eq]
  rcases hremaining with h0 | h1 | h2 | h3
  · have hdrop : content.drop s.i = [] := List.drop_of_length_le (by omega)
    rw [decodeTail_none h0, hdrop, h0]
    simp [decodeText, hlength]
  · have hdrop := drop_eq_singleton (by omega : s.i + 1 = content.length)
    obtain ⟨herr, hsize⟩ :=
      decodeTail_one alphabet (d := data) h1
    rw [hdrop, if_neg herr, hsize]
    simp [decodeText, hlength]
  · have hdrop := drop_eq_pair (by omega : s.i + 2 = content.length)
    obtain ⟨herr, hout⟩ := decodeTail_two alphabet (d := data) h2
    rw [hdata.getD_eq s.i (by omega), hdata.getD_eq (s.i + 1) (by omega)]
      at herr hout
    rw [hdrop, hout, h2, decodeText_pair, take_set_succ _ (by omega)]
    simp only [herr]
    refine ⟨?_, by simp [hlength]⟩
    split_ifs <;> tauto
  · have hdrop : content.drop s.i = [content.getD s.i 0,
        content.getD (s.i + 1) 0, content.getD (s.i + 2) 0] := by
      rw [drop_eq_three (by omega), List.drop_of_length_le (by omega)]
    obtain ⟨herr, hout⟩ := decodeTail_three alphabet (d := data) h3
    rw [hdata.getD_eq s.i (by omega), hdata.getD_eq (s.i + 1) (by omega),
      hdata.getD_eq (s.i + 2) (by omega)] at herr hout
    rw [hdrop, hout, h3, decodeText_triple,
      take_set_succ _ (by simp; omega), take_set_succ _ (by omega)]
    simp only [herr]
    refine ⟨?_, by simp [hlength]⟩
    split_ifs <;> first | tauto | simp

end Decoder

end Stdx.Base64
