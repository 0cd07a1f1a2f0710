import Stdx.Base32.Text

/-!
# The in-place loops compute the text codec

The text of the whole input is what has been written so far, followed by the text of what
has not been read yet.
-/

namespace Stdx.Base32

open Stdx.Foundation

/-! ## Stores -/

@[simp] theorem storeAt_length (output : Bytes) (o : Nat) (xs : Bytes) :
    (storeAt output o xs).length = output.length := by
  induction xs generalizing output o with
  | nil => rfl
  | cons x xs ih => rw [storeAt, ih, List.length_set]

theorem storeAt_take {output : Bytes} {o : Nat} {xs : Bytes} (h : o + xs.length ≤ output.length) :
    (storeAt output o xs).take (o + xs.length) = output.take o ++ xs := by
  induction xs generalizing output o with
  | nil => simp [storeAt]
  | cons x xs ih =>
    have hlt : o < output.length := by
      rw [List.length_cons] at h
      omega
    have hfirst : (output.set o x).take (o + 1) = output.take o ++ [x] := by
      rw [List.take_succ_eq_append_getElem (by simpa using hlt),
        List.take_set_of_le (Nat.le_refl o)]
      simp
    have hrest := @ih (output.set o x) (o + 1) (by
      rw [List.length_set]
      rw [List.length_cons] at h
      omega)
    have hindex : o + (x :: xs).length = o + 1 + xs.length := by
      rw [List.length_cons]
      omega
    rw [storeAt, hindex, hrest, hfirst, List.append_assoc]
    rfl

theorem storeAt_take_over {output front xs ys : Bytes} {o j : Nat}
    (h : output.take (o + xs.length) = front ++ xs) (hfront : front.length = o)
    (hj : j ≤ xs.length) (hroom : o + (j + ys.length) ≤ output.length) :
    (storeAt output (o + j) ys).take (o + (xs.take j ++ ys).length) =
      front ++ (xs.take j ++ ys) := by
  have hlength : o + (xs.take j ++ ys).length = o + j + ys.length := by
    rw [List.length_append, List.length_take_of_le hj]
    omega
  have hprefix : output.take (o + j) = front ++ xs.take j := by
    have hcut := congrArg (List.take (o + j)) h
    rw [List.take_take, Nat.min_eq_left (by omega)] at hcut
    rw [hcut, ← hfront, List.take_length_add_append]
  rw [hlength, storeAt_take (by omega), hprefix, List.append_assoc]

theorem forRange_set (output : Bytes) (x : UInt8) (start count : Nat) :
    forRange start count (fun p output => output.set p x) output =
      storeAt output start (List.replicate count x) := by
  induction count generalizing output start with
  | zero => rfl
  | succ count ih => rw [forRange_succ, ih, List.replicate_succ, storeAt]

theorem drop_eq_map_getD {data : Bytes} {i n : Nat} (h : i + n = data.length) :
    data.drop i = (List.range n).map fun j => data.getD (i + j) 0 := by
  apply List.ext_getElem
  · simp
    omega
  · intro j hj hj'
    rw [List.length_drop] at hj
    rw [List.getElem_drop, List.getElem_map, List.getElem_range,
      List.getD_eq_getElem _ _ (by omega)]

theorem drop_eq_append {data : Bytes} {i n : Nat} (h : i + n ≤ data.length) :
    data.drop i = ((List.range n).map fun j => data.getD (i + j) 0) ++ data.drop (i + n) := by
  have htake : (data.take (i + n)).drop i = (List.range n).map fun j => data.getD (i + j) 0 := by
    rw [drop_eq_map_getD (n := n) (by rw [List.length_take]; omega)]
    apply List.map_congr_left
    intro j hj
    rw [List.mem_range] at hj
    simp [List.getD_eq_getElem?_getD, hj]
  rw [← htake, List.drop_take, Nat.add_sub_cancel_left, ← List.drop_drop, List.take_append_drop]

/-! ## Encoding -/

section Encoder

variable (alphabet : Alphabet)

def padding (length : Nat) : Bytes := List.replicate ((8 - length % 8) % 8) PAD

def paddedText (data : Bytes) : Bytes :=
  let text := encodeText alphabet data
  if alphabet.isPadded then text ++ padding text.length else text

/-- After `i` octets, with room left for the text of the others. -/
structure EncodeInv (data : Bytes) (size i : Nat) (output : Bytes) : Prop where
  le : i ≤ data.length
  aligned : i % 5 = 0
  length_eq : output.length = size
  room : i / 5 * 8 + (encodeText alphabet (data.drop i)).length ≤ size
  text_eq : encodeText alphabet data =
    output.take (i / 5 * 8) ++ encodeText alphabet (data.drop i)

theorem encodeText_append {g : Bytes} (hg : g.length = 5) (rest : Bytes) :
    encodeText alphabet (g ++ rest) = encodeGroup alphabet g ++ encodeText alphabet rest := by
  match g with
  | [b0, b1, b2, b3, b4] => rfl

theorem encodeGroup_five (g : Bytes) (hg : g.length = 5) :
    encodeGroup alphabet g = (quintets g).map (quintetToChar · alphabet) := by
  have hcount : charactersOf 5 = 8 := by simp [charactersOf]
  rw [encodeGroup, hg, hcount]
  rfl

theorem encodeBlock_eq (data : Bytes) {start : Nat} (n : Nat) (hstart : start % 5 = 0)
    (output : Bytes) :
    encodeBlock alphabet data start n output = storeAt output ((start + n * 5) / 5 * 8)
      (encodeGroup alphabet ((List.range 5).map fun j => data.getD (start + n * 5 + j) 0)) := by
  have hindex : start / 5 * 8 + n * 8 = (start + n * 5) / 5 * 8 := by omega
  rw [encodeGroup_five alphabet _ (by simp), ← hindex]
  rfl

variable {alphabet}

theorem EncodeInv.block {data output : Bytes} {size start n : Nat} (hstart : start % 5 = 0)
    (h : EncodeInv alphabet data size (start + n * 5) output)
    (hi : start + n * 5 + 5 ≤ data.length) :
    EncodeInv alphabet data size (start + (n + 1) * 5)
      (encodeBlock alphabet data start n output) := by
  have hroom := h.room
  have htext := h.text_eq
  have hnext : start + (n + 1) * 5 = start + n * 5 + 5 := by omega
  have hindex : (start + n * 5 + 5) / 5 * 8 = (start + n * 5) / 5 * 8 + 8 := by omega
  rw [drop_eq_append hi, encodeText_append _ (by simp)] at hroom htext
  have hlength : (encodeGroup alphabet ((List.range 5).map fun j =>
      data.getD (start + n * 5 + j) 0)).length = 8 := encodeGroup_full alphabet _ _ _ _ _
  rw [List.length_append, hlength] at hroom
  rw [hnext, encodeBlock_eq alphabet data n hstart]
  refine ⟨hi, by omega, ?_, by omega, ?_⟩
  · rw [storeAt_length]
    exact h.length_eq
  · have htake := @storeAt_take output ((start + n * 5) / 5 * 8)
      (encodeGroup alphabet ((List.range 5).map fun j => data.getD (start + n * 5 + j) 0))
      (by rw [hlength, h.length_eq]; omega)
    rw [hlength] at htake
    rw [hindex, htake, htext, List.append_assoc]

theorem EncodeInv.round {data output : Bytes} {size i : Nat} (count : Nat)
    (h : EncodeInv alphabet data size i output) (hi : i + 5 * count ≤ data.length) :
    EncodeInv alphabet data size (i + 5 * count)
      (forRange 0 count (encodeBlock alphabet data i) output) := by
  have haligned := h.aligned
  have hrule := forRange_rule (l := 0) (n := count) (f := encodeBlock alphabet data i)
    (I := fun k out => EncodeInv alphabet data size (i + k * 5) out)
    (fun k out _ hk hinv => hinv.block haligned (by omega)) (s := output) (by simpa using h)
  rw [Nat.zero_add, Nat.mul_comm count] at hrule
  exact hrule

theorem EncodeInv.blocks {data : Bytes} {size : Nat} {s : Nat × Bytes} (count : Nat)
    (hcount : 0 < count) (h : EncodeInv alphabet data size s.1 s.2) :
    EncodeInv alphabet data size (encodeBlocks alphabet data count s).1
        (encodeBlocks alphabet data count s).2 ∧
      ¬(encodeBlocks alphabet data count s).1 + 5 * count ≤ data.length := by
  obtain ⟨hinv, hexit⟩ := whileLoop_rule
    (c := fun s => decide (s.1 + 5 * count ≤ data.length))
    (f := fun s => (s.1 + 5 * count, forRange 0 count (encodeBlock alphabet data s.1) s.2))
    (I := fun s => EncodeInv alphabet data size s.1 s.2)
    (fun s => data.length - s.1)
    (fun s hinv hcond => by
      simp only [decide_eq_true_eq] at hcond
      exact ⟨hinv.round count hcond, by simp only; omega⟩)
    (k := data.length + 1) h (by omega)
  exact ⟨hinv, of_decide_eq_false hexit⟩

theorem padding_eq {n : Nat} (hn : n % 5 ≠ 0) :
    padding (charactersOf n) = List.replicate (8 - charactersOf (n % 5)) PAD := by
  have hsplit : charactersOf n = n / 5 * 8 + charactersOf (n % 5) := by
    unfold charactersOf
    omega
  have hpart : 2 ≤ charactersOf (n % 5) ∧ charactersOf (n % 5) ≤ 7 := by
    unfold charactersOf
    omega
  unfold padding
  congr 1
  omega

variable (alphabet)

def tailStores (data : Bytes) (i : Nat) (output : Bytes) : Bytes :=
  let rem := data.length - i
  let o := i / 5 * 8
  let b0 := data.getD i 0
  let b1 := data.getD (i + 1) 0
  let b2 := data.getD (i + 2) 0
  let b3 := data.getD (i + 3) 0
  let output := storeAt output o [quintetToChar (b0 >>> 3) alphabet,
    quintetToChar ((b0 &&& 0x07) <<< 2) alphabet]
  if rem ≥ 2 then
    let output := storeAt output (o + 1)
      [quintetToChar (((b0 &&& 0x07) <<< 2) ||| (b1 >>> 6)) alphabet,
      quintetToChar ((b1 >>> 1) &&& 0x1f) alphabet, quintetToChar ((b1 &&& 0x01) <<< 4) alphabet]
    if rem ≥ 3 then
      let output := storeAt output (o + 3)
        [quintetToChar (((b1 &&& 0x01) <<< 4) ||| (b2 >>> 4)) alphabet,
          quintetToChar ((b2 &&& 0x0f) <<< 1) alphabet]
      if rem = 4 then
        storeAt output (o + 4) [quintetToChar (((b2 &&& 0x0f) <<< 1) ||| (b3 >>> 7)) alphabet,
          quintetToChar ((b3 >>> 2) &&& 0x1f) alphabet,
          quintetToChar ((b3 &&& 0x03) <<< 3) alphabet]
      else output
    else output
  else output

theorem tailStores_length (data : Bytes) (i : Nat) (output : Bytes) :
    (tailStores alphabet data i output).length = output.length := by
  unfold tailStores
  dsimp only
  split
  · split
    · split <;> simp
    · simp
  · simp

theorem encodeTail_eq_stores {data : Bytes} {i : Nat} (hi : i < data.length)
    (hlast : data.length < i + 5) (output : Bytes) :
    encodeTail alphabet data i output =
      if alphabet.isPadded then
        storeAt (tailStores alphabet data i output)
          (i / 5 * 8 + charactersOf (data.length - i))
          (List.replicate (8 - charactersOf (data.length - i)) PAD)
      else tailStores alphabet data i output := by
  have hrem : data.length - i = 1 ∨ data.length - i = 2 ∨ data.length - i = 3 ∨
      data.length - i = 4 := by omega
  rcases hrem with h | h | h | h <;>
    simp [encodeTail, tailStores, h, forRange_set, charactersOf]

variable {alphabet}

theorem tailStores_take {data output : Bytes} {i : Nat} (hi : i < data.length)
    (hlast : data.length < i + 5)
    (hroom : i / 5 * 8 + charactersOf (data.length - i) ≤ output.length) :
    (tailStores alphabet data i output).take
        (i / 5 * 8 + (encodeGroup alphabet (data.drop i)).length) =
      output.take (i / 5 * 8) ++ encodeGroup alphabet (data.drop i) := by
  have hrem : data.length - i = 1 ∨ data.length - i = 2 ∨ data.length - i = 3 ∨
      data.length - i = 4 := by omega
  have hfront : (output.take (i / 5 * 8)).length = i / 5 * 8 := by
    rw [List.length_take]
    omega
  have hc1 : charactersOf 1 = 2 := by simp [charactersOf]
  have hc2 : charactersOf 2 = 4 := by simp [charactersOf]
  have hc3 : charactersOf 3 = 5 := by simp [charactersOf]
  have hc4 : charactersOf 4 = 7 := by simp [charactersOf]
  unfold tailStores
  generalize i / 5 * 8 = o at *
  -- the first two characters are written for every remainder
  have hfirst (x0 x1 : UInt8) := @storeAt_take output o [x0, x1] (by
    rw [List.length_cons, List.length_cons, List.length_nil]
    rcases hrem with h | h | h | h <;> simp only [h, hc1, hc2, hc3, hc4] at hroom <;> omega)
  have hsecond (x0 x1 y1 y2 y3 : UInt8) (hsize : o + 4 ≤ output.length) :=
    @storeAt_take_over _ _ _ [y1, y2, y3] _ 1 (hfirst x0 x1) hfront (by simp)
      (by rw [storeAt_length]; exact hsize)
  have hthird (x0 x1 y1 y2 y3 z3 z4 : UInt8) (hsize : o + 5 ≤ output.length) :=
    @storeAt_take_over _ _ _ [z3, z4] _ 3 (hsecond x0 x1 y1 y2 y3 (by omega)) hfront (by simp)
      (by rw [storeAt_length, storeAt_length]; exact hsize)
  have hfourth (x0 x1 y1 y2 y3 z3 z4 w4 w5 w6 : UInt8) (hsize : o + 7 ≤ output.length) :=
    @storeAt_take_over _ _ _ [w4, w5, w6] _ 4 (hthird x0 x1 y1 y2 y3 z3 z4 (by omega)) hfront
      (by simp) (by rw [storeAt_length, storeAt_length, storeAt_length]; exact hsize)
  have hgroup (n : Nat) (hn : data.length - i = n) :=
      drop_eq_map_getD (by omega : i + n = data.length)
  rcases hrem with h | h | h | h
  · rw [h, hc1] at hroom
    rw [hgroup 1 h]
    simpa [encodeGroup, quintets, hc1, h] using hfirst _ _
  · rw [h, hc2] at hroom
    rw [hgroup 2 h]
    simpa [encodeGroup, quintets, hc2, List.range_succ, h] using hsecond _ _ _ _ _ hroom
  · rw [h, hc3] at hroom
    rw [hgroup 3 h]
    simpa [encodeGroup, quintets, hc3, List.range_succ, h] using hthird _ _ _ _ _ _ _ hroom
  · rw [h, hc4] at hroom
    rw [hgroup 4 h]
    simpa [encodeGroup, quintets, hc4, List.range_succ, h] using hfourth _ _ _ _ _ _ _ _ _ _ hroom

theorem charactersOf_split (n : Nat) : charactersOf n = n / 5 * 8 + charactersOf (n % 5) := by
  unfold charactersOf
  omega

theorem paddedText_length_tail {data : Bytes} (h : data.length % 5 ≠ 0)
    (hpadded : alphabet.isPadded = true) :
    (paddedText alphabet data).length = data.length / 5 * 8 + 8 := by
  have hsplit := charactersOf_split data.length
  have hpart : charactersOf (data.length % 5) ≤ 8 := by
    unfold charactersOf
    omega
  simp only [paddedText, hpadded, if_true]
  rw [List.length_append, encodeText_length, padding_eq h, List.length_replicate]
  omega

theorem paddedText_whole {data : Bytes} (h : data.length % 5 = 0) :
    paddedText alphabet data = encodeText alphabet data := by
  have hcount : (8 - charactersOf data.length % 8) % 8 = 0 := by
    unfold charactersOf
    omega
  simp only [paddedText, padding, encodeText_length, hcount]
  simp

theorem encodeTail_eq {data output : Bytes} {size i : Nat}
    (hsize : (paddedText alphabet data).length ≤ size)
    (h : EncodeInv alphabet data size i output) (hexit : ¬i + 5 * 1 ≤ data.length) :
    (encodeTail alphabet data i output).take (paddedText alphabet data).length =
      paddedText alphabet data ∧ (encodeTail alphabet data i output).length = size := by
  have hlength := h.length_eq
  have haligned := h.aligned
  have htext := h.text_eq
  have hrest : (data.drop i).length = data.length - i := List.length_drop
  rcases Nat.lt_or_ge i data.length with hi | hi
  · have hmod : data.length % 5 = data.length - i := by omega
    have hne : data.length % 5 ≠ 0 := by omega
    have hdiv : data.length / 5 = i / 5 := by omega
    have hshort := @encodeText_short alphabet (data.drop i) (by omega)
    have hgroup : (encodeGroup alphabet (data.drop i)).length = charactersOf (data.length - i) := by
      rw [encodeGroup_length alphabet (by omega), hrest]
    have hroom := h.room
    rw [hshort] at htext hroom
    have htake := @tailStores_take alphabet _ _ _ hi (by omega) (by omega : i / 5 * 8 +
      charactersOf (data.length - i) ≤ output.length)
    rw [← htext] at htake
    rw [encodeTail_eq_stores alphabet hi (by omega)]
    have htotal : i / 5 * 8 + (encodeGroup alphabet (data.drop i)).length =
        (encodeText alphabet data).length := by
      rw [htext, List.length_append, List.length_take]
      omega
    rw [htotal] at htake
    cases hpadded : alphabet.isPadded with
    | true =>
      have hfull := paddedText_length_tail hne hpadded
      have hpadding : padding (encodeText alphabet data).length =
          List.replicate (8 - charactersOf (data.length - i)) PAD := by
        rw [encodeText_length, padding_eq hne, hmod]
      have hstart : i / 5 * 8 + charactersOf (data.length - i) =
          (encodeText alphabet data).length := by omega
      have hpaddedText : paddedText alphabet data = encodeText alphabet data ++
          List.replicate (8 - charactersOf (data.length - i)) PAD := by
        simp only [paddedText, hpadded, if_true, hpadding]
      have hsplit : (paddedText alphabet data).length = (encodeText alphabet data).length +
          (List.replicate (8 - charactersOf (data.length - i)) PAD).length := by
        rw [hpaddedText, List.length_append]
      simp only [if_true]
      rw [hstart, hsplit, storeAt_take (by
        rw [tailStores_length]
        omega), htake, hpaddedText]
      exact ⟨rfl, by rw [storeAt_length, tailStores_length, hlength]⟩
    | false =>
      have hpaddedText : paddedText alphabet data = encodeText alphabet data := by
        simp [paddedText, hpadded]
      rw [hpaddedText]
      exact ⟨htake, by simpa [tailStores_length] using hlength⟩
  · have hempty : data.drop i = [] := List.drop_eq_nil_of_le hi
    have hle := h.le
    have htail : encodeTail alphabet data i output = output := by
      rw [encodeTail, if_neg (by omega)]
    have hfull : paddedText alphabet data = output.take (i / 5 * 8) := by
      rw [paddedText_whole (by omega), htext, hempty]
      simp [encodeText, encodeGroup, charactersOf]
    rw [htail]
    refine ⟨?_, hlength⟩
    have hcount := congrArg List.length hfull
    rw [List.length_take] at hcount
    rw [hcount, hfull, ← List.take_take]
    simp

/-- The lengths for which `encoded_length` stays within `usize`. -/
def Encodable (T : Target) (alphabet : Alphabet) (n : Nat) : Prop :=
  alphabet.isPadded = true ∨ n % 5 = 0 ∨ 8 * n + 4 < 2 ^ T.usizeBits

instance (T : Target) (alphabet : Alphabet) (n : Nat) : Decidable (Encodable T alphabet n) :=
  inferInstanceAs (Decidable (_ ∨ _ ∨ _))

variable (alphabet) in
theorem encodedLength_eq (T : Target) {data : Bytes}
    (hfits : data.length < 2 ^ (T.usizeBits - 1)) :
    encodedLength T data.length alphabet.isPadded =
      if Encodable T alphabet data.length then some (paddedText alphabet data).length
      else none := by
  have hpow := two_pow_usizeBits T
  have hbig := le_two_pow_usizeBits T
  have hbase : checked T (data.length / 5 * 8) = some (data.length / 5 * 8) :=
    if_pos (by omega)
  have hlength := encodeText_length alphabet data
  rcases Nat.eq_zero_or_pos (data.length % 5) with hmod | hmod
  · have hwhole : (paddedText alphabet data).length = data.length / 5 * 8 := by
      rw [paddedText_whole hmod, hlength, charactersOf]
      omega
    have hencodable : Encodable T alphabet data.length := .inr (.inl hmod)
    rw [if_pos hencodable, hwhole, encodedLength]
    simp only [hbase, hmod]
    split
    · next hzero => simp [hzero]
    · rfl
  · have hne : data.length ≠ 0 := by omega
    rw [encodedLength, if_neg hne]
    simp only [hbase]
    cases hpadded : alphabet.isPadded with
    | true =>
      have hencodable : Encodable T alphabet data.length := .inl hpadded
      have hpad : checked T (data.length / 5 * 8 + 8) = some (data.length / 5 * 8 + 8) :=
        if_pos (by omega)
      rw [if_pos hencodable, paddedText_length_tail (by omega) hpadded]
      simp [Nat.ne_of_gt hmod, hpad]
    | false =>
      have htext : (paddedText alphabet data).length = (data.length * 8 + 4) / 5 := by
        simp only [paddedText, hpadded]
        rw [if_neg (by simp), hlength, charactersOf, Nat.mul_comm]
      have hiff : Encodable T alphabet data.length ↔ data.length * 8 + 4 < 2 ^ T.usizeBits := by
        simp only [Encodable, hpadded, Bool.false_eq_true, false_or]
        omega
      simp only [Option.bind_eq_bind, Option.bind_some, Nat.ne_of_gt hmod, if_false, hiff,
        Bool.false_eq_true]
      rcases Nat.lt_or_ge (data.length * 8 + 4) (2 ^ T.usizeBits) with hlt | hge
      · simp [checked, hlt, htext, (by omega : data.length * 8 < 2 ^ T.usizeBits)]
      · have hover : ¬data.length * 8 + 4 < 2 ^ T.usizeBits := by omega
        rcases Nat.lt_or_ge (data.length * 8) (2 ^ T.usizeBits) with hbits | hbits
        · simp [checked, hover, hbits]
        · simp [checked, hover, Nat.not_lt.mpr hbits]

variable (alphabet) in
theorem encodeIntoConstantTime_eq (T : Target) {data output : Bytes}
    (hfits : data.length < 2 ^ (T.usizeBits - 1)) (hencodable : Encodable T alphabet data.length)
    (hsize : (paddedText alphabet data).length ≤ output.length) :
    ∃ written, encodeIntoConstantTime T output data alphabet = some (.ok (), written) ∧
      written.take (paddedText alphabet data).length = paddedText alphabet data ∧
      written.length = output.length := by
  have hroom : (encodeText alphabet data).length ≤ (paddedText alphabet data).length := by
    unfold paddedText
    simp only
    split <;> simp
  have hstart : EncodeInv alphabet data output.length 0 output :=
    ⟨Nat.zero_le _, rfl, rfl, by simpa using Nat.le_trans hroom hsize, by simp⟩
  obtain ⟨hfirst, -⟩ := EncodeInv.blocks (s := (0, output)) 8 (by omega) hstart
  obtain ⟨hsecond, hexit⟩ := hfirst.blocks 1 (by omega)
  have hexpected := encodedLength_eq alphabet T hfits
  rw [if_pos hencodable] at hexpected
  refine ⟨_, ?_, encodeTail_eq hsize hsecond hexit⟩
  rw [encodeIntoConstantTime, hexpected]
  exact if_neg (Nat.not_lt.mpr hsize)

end Encoder

end Stdx.Base32
