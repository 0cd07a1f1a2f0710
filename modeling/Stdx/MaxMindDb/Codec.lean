import Stdx.MaxMindDb.Encoder
import Stdx.MaxMindDb.Decoder

/-!
# Reading an encoded value back

A decoder whose limits admit a value, standing in front of its encoding, hands
the visitor that value and stops right behind the encoding.
-/

namespace Stdx.MaxMindDb

open Stdx.Foundation

/-! ## What a visitor is handed for a value, and what that costs -/

mutual

/-- A pointer is followed and never handed to a visitor; its line here is not used. -/
def Value.visited : Value → Visited
  | .pointer target => .u32 target
  | .string s => .string s
  | .float64 bits => .f64 bits
  | .bytes b => .bytes b
  | .uint16 n => .u16 n
  | .uint32 n => .u32 n
  | .int32 n => .i32 n
  | .map entries => .map (entriesVisited entries)
  | .uint64 n => .u64 n
  | .uint128 n => .u128 n
  | .slice elements => .array (elementsVisited elements)
  | .bool b => .bool b
  | .float32 bits => .f32 bits

def entriesVisited : List (String × Value) → List (Visited × Visited)
  | [] => []
  | (k, v) :: rest => (.string k, v.visited) :: entriesVisited rest

def elementsVisited : List Value → List Visited
  | [] => []
  | v :: rest => v.visited :: elementsVisited rest

end

mutual

def Value.valueCount : Value → Nat
  | .map entries => 1 + entriesCount entries
  | .slice elements => 1 + elementsCount elements
  | _ => 1

def entriesCount : List (String × Value) → Nat
  | [] => 0
  | (_, v) :: rest => 1 + v.valueCount + entriesCount rest

def elementsCount : List Value → Nat
  | [] => 0
  | v :: rest => v.valueCount + elementsCount rest

end

mutual

def Value.payloadBytes : Value → Nat
  | .string s => (utf8 s).length
  | .bytes b => b.length
  | .map entries => entriesPayload entries
  | .slice elements => elementsPayload elements
  | _ => 0

def entriesPayload : List (String × Value) → Nat
  | [] => 0
  | (k, v) :: rest => (utf8 k).length + v.payloadBytes + entriesPayload rest

def elementsPayload : List Value → Nat
  | [] => 0
  | v :: rest => v.payloadBytes + elementsPayload rest

end

mutual

def Value.nesting : Value → Nat
  | .map entries => 1 + entriesNesting entries
  | .slice elements => 1 + elementsNesting elements
  | _ => 1

/-- A key is a value of its own, one level below its map. -/
def entriesNesting : List (String × Value) → Nat
  | [] => 0
  | (_, v) :: rest => max (max 1 v.nesting) (entriesNesting rest)

def elementsNesting : List Value → Nat
  | [] => 0
  | v :: rest => max v.nesting (elementsNesting rest)

end

structure Decoder.Admits (d : Decoder) (v : Value) : Prop where
  depth : d.depth + v.nesting ≤ d.limits.maxDepth
  values : v.valueCount ≤ d.valuesLeft
  payload : v.payloadBytes ≤ d.payloadLeft

def Decoder.after (d : Decoder) (length values payload : Nat) : Decoder :=
  { d with
    currentPtr := d.currentPtr + length
    valuesLeft := d.valuesLeft - values
    payloadLeft := d.payloadLeft - payload }

/-! ## The cursor in front of given octets -/

structure Decoder.Reads (d : Decoder) (unread : Bytes) : Prop where
  inside : d.currentPtr ≤ d.buf.length
  drop_eq : d.buf.drop d.currentPtr = unread

namespace Decoder.Reads

variable {d : Decoder} {xs rest : Bytes}

theorem available (h : d.Reads (xs ++ rest)) : d.currentPtr + xs.length ≤ d.buf.length := by
  have hlength := congrArg List.length h.drop_eq
  rw [List.length_drop, List.length_append] at hlength
  have := h.inside
  omega

theorem behind (h : d.Reads (xs ++ rest)) (d' : Decoder) (hbuf : d'.buf = d.buf)
    (hptr : d'.currentPtr = d.currentPtr + xs.length) : d'.Reads rest where
  inside := by rw [hptr, hbuf]; exact h.available
  drop_eq := by rw [hptr, hbuf, ← List.drop_drop, h.drop_eq, List.drop_left]

theorem tail {b : UInt8} (h : d.Reads (b :: rest)) : (d.skip 1).Reads rest :=
  behind (show d.Reads ([b] ++ rest) from h) _ rfl rfl

end Decoder.Reads

variable {d : Decoder} {xs rest : Bytes}

theorem Decoder.skip_skip (d : Decoder) (m n : Nat) : (d.skip m).skip n = d.skip (m + n) := by
  rw [skip, skip, skip, Nat.add_assoc]

theorem ensureAvailable_reads (h : d.Reads (xs ++ rest)) :
    ensureAvailable xs.length d = (.ok (), d) := by
  rw [ensureAvailable, if_pos h.available]

theorem slice_reads (h : d.Reads (xs ++ rest)) : slice xs.length d = (.ok xs, d) := by
  rw [slice, if_pos h.available, h.drop_eq, List.take_left]

theorem takeSlice_reads (h : d.Reads (xs ++ rest)) :
    takeSlice xs.length d = (.ok xs, d.skip xs.length) := by
  rw [takeSlice, Checked.run_bind, slice_reads h]
  rfl

theorem eatByte_reads {b : UInt8} (h : d.Reads (b :: rest)) :
    eatByte d = (.ok b, d.skip 1) := by
  have h : d.Reads ([b] ++ rest) := h
  rw [eatByte, Checked.run_bind, show 1 = [b].length from rfl, ensureAvailable_reads h]
  simp only [Checked.run_bind, takeSlice_reads h, Checked.run_pure]

theorem toUsize_eq (base : Nat) (bytes : Bytes) :
    toUsize base bytes = base * 256 ^ bytes.length + beValue bytes := by
  induction bytes using List.reverseRecOn with
  | nil => simp [toUsize]
  | append_singleton bytes b ih =>
    have hstep : toUsize base (bytes ++ [b]) = (toUsize base bytes <<< 8) ||| b.toNat := by
      simp [toUsize]
    rw [hstep, ← Nat.shiftLeft_add_eq_or_of_lt b.toNat_lt, ih, beValue_concat,
      Nat.shiftLeft_eq, List.length_append, List.length_singleton, pow_succ]
    ring

theorem toNat_ofNat {n : Nat} (h : n < 256) : (UInt8.ofNat n).toNat = n := by
  rw [UInt8.toNat_ofNat', Nat.mod_eq_of_lt h]

theorem toUsize_pushOctets (base v size : Nat) :
    toUsize base (pushOctets v size) = base * 256 ^ size + v % 256 ^ size := by
  rw [toUsize_eq, length_pushOctets, beValue_pushOctets]

theorem ofNat_low (v : Nat) : UInt8.ofNat (v &&& 0xFF) = UInt8.ofNat v := by
  apply UInt8.toNat_inj.mp
  rw [UInt8.toNat_ofNat', UInt8.toNat_ofNat', show 0xFF = 2 ^ 8 - 1 from rfl,
    Nat.and_two_pow_sub_one_eq_mod, Nat.mod_mod]

theorem pushOctets_one (v : Nat) : pushOctets v 1 = [UInt8.ofNat (v &&& 0xFF)] := by
  rw [ofNat_low]
  simp [pushOctets, List.range_succ]

theorem pushOctets_two (v : Nat) :
    pushOctets v 2 = [UInt8.ofNat (v >>> 8), UInt8.ofNat (v &&& 0xFF)] := by
  rw [ofNat_low]
  simp [pushOctets, List.range_succ]

theorem pushOctets_three (v : Nat) : pushOctets v 3 =
    [UInt8.ofNat (v >>> 16), UInt8.ofNat (v >>> 8), UInt8.ofNat (v &&& 0xFF)] := by
  rw [ofNat_low]
  simp [pushOctets, List.range_succ]

theorem pushOctets_four (v : Nat) : pushOctets v 4 =
    [UInt8.ofNat (v >>> 24), UInt8.ofNat (v >>> 16), UInt8.ofNat (v >>> 8),
      UInt8.ofNat (v &&& 0xFF)] := by
  rw [ofNat_low]
  simp [pushOctets, List.range_succ]

/-! ## Sizes and types -/

theorem sizeBits_lt (n : Nat) : (sizeBits n).toNat < 32 := by
  rw [sizeBits]
  split
  · next h =>
    rw [FIRST_SIZE] at h
    rw [UInt8.toNat_ofNat', Nat.mod_eq_of_lt (by omega)]
    omega
  · split
    · decide
    · split <;> decide

theorem ctrl_fields : ∀ t : Fin 8, ∀ s : Fin 32,
    (UInt8.ofNat (t.val <<< 5) ||| UInt8.ofNat s.val) >>> 5 = UInt8.ofNat t.val ∧
      (UInt8.ofNat (t.val <<< 5) ||| UInt8.ofNat s.val) &&& 0x1f = UInt8.ofNat s.val := by
  decide

theorem length_sizeOctets (n : Nat) : (sizeOctets n).length = (sizeBits n).toNat - 28 := by
  unfold sizeOctets sizeBits
  split
  · next h =>
    rw [FIRST_SIZE] at h
    rw [toNat_ofNat (by omega), List.length_nil]
    omega
  · split
    · rfl
    · split
      · rfl
      · rfl

theorem sizeFromCtrlByte_reads {ctrl : UInt8} {n : Nat} (hn : n < MAX_PAYLOAD_SIZE)
    (hctrl : ctrl &&& 0x1f = sizeBits n) (h : d.Reads (sizeOctets n ++ rest)) :
    sizeFromCtrlByte ctrl d = (.ok n, d.skip (sizeOctets n).length) := by
  have hlength := length_sizeOctets n
  rw [sizeFromCtrlByte, hctrl]
  simp only [← hlength]
  rw [Checked.run_bind, ensureAvailable_reads h]
  simp only [Checked.run_bind, takeSlice_reads h]
  have hfirst : FIRST_SIZE = 29 := rfl
  have hsecond : SECOND_SIZE = 285 := rfl
  have hthird : THIRD_SIZE = 65821 := rfl
  have hmax : MAX_PAYLOAD_SIZE = 16843037 := rfl
  unfold sizeOctets sizeBits
  split
  · next hlt =>
    rw [toNat_ofNat (by omega), if_pos (by omega), Checked.run_pure]
  · next hge =>
    split
    · next hlt =>
      have hvalue : 29 + (UInt8.ofNat (n - FIRST_SIZE)).toNat = n := by
        rw [toNat_ofNat (by omega)]
        omega
      rw [if_neg (by decide), if_pos (by decide)]
      change (Outcome.ok (29 + (UInt8.ofNat (n - FIRST_SIZE)).toNat), _) = _
      rw [hvalue]
    · next hge =>
      split
      · next hlt =>
        rw [if_neg (by decide), if_neg (by decide), if_pos (by decide), Checked.run_pure,
          ← pushOctets_two, toUsize_pushOctets,
          show 285 + (0 * 256 ^ 2 + (n - SECOND_SIZE) % 256 ^ 2) = n by omega]
      · next hge =>
        rw [if_neg (by decide), if_neg (by decide), if_neg (by decide), Checked.run_pure,
          ← pushOctets_three, toUsize_pushOctets,
          show 65821 + (0 * 256 ^ 3 + (n - THIRD_SIZE) % 256 ^ 3) = n by omega]

theorem sizeAndType_reads {t n : Nat} (ht : 0 < t) (ht' : t < 256) (hn : n < MAX_PAYLOAD_SIZE)
    (h : d.Reads (ctrlAndSize t n ++ rest)) :
    sizeAndType d = (.ok (n, t), d.skip (ctrlAndSize t n).length) := by
  have hsize : sizeBits n = UInt8.ofNat (sizeBits n).toNat := (UInt8.ofNat_toNat).symm
  by_cases hlow : t < 8
  · obtain ⟨htype, hbits⟩ := ctrl_fields ⟨t, hlow⟩ ⟨_, sizeBits_lt n⟩
    simp only [← hsize] at htype hbits
    have hoctets : ctrlAndSize t n = (UInt8.ofNat (t <<< 5) ||| sizeBits n) :: sizeOctets n := by
      simp [ctrlAndSize, typeOctets, hlow]
    rw [hoctets] at h ⊢
    have hrest : (d.skip 1).Reads (sizeOctets n ++ rest) := h.tail
    have hne : UInt8.ofNat t ≠ 0 := by
      intro hzero
      have := congrArg UInt8.toNat hzero
      rw [toNat_ofNat (by omega)] at this
      exact absurd this (by simp; omega)
    rw [sizeAndType, Checked.run_bind, eatByte_reads h]
    simp only [htype, if_neg hne, Checked.run_bind, Checked.run_pure, toNat_ofNat ht',
      sizeFromCtrlByte_reads hn hbits hrest]
    rw [Decoder.skip, Decoder.skip, Decoder.skip, List.length_cons, Nat.add_assoc,
      Nat.add_comm 1]
  · obtain ⟨htype, hbits⟩ := ctrl_fields ⟨0, by omega⟩ ⟨_, sizeBits_lt n⟩
    simp only [← hsize, Nat.zero_shiftLeft] at htype hbits
    have hne : UInt8.ofNat (t - 7) ≠ 0 := by
      intro hzero
      have := congrArg UInt8.toNat hzero
      rw [toNat_ofNat (by omega)] at this
      exact absurd this (by simp; omega)
    have hoctets : ctrlAndSize t n =
        (UInt8.ofNat 0 ||| sizeBits n) :: UInt8.ofNat (t - 7) :: sizeOctets n := by
      simp [ctrlAndSize, typeOctets, hlow, hne]
    rw [hoctets] at h ⊢
    have hext : (d.skip 1).Reads (UInt8.ofNat (t - 7) :: (sizeOctets n ++ rest)) :=
      h.tail
    have hrest : ((d.skip 1).skip 1).Reads (sizeOctets n ++ rest) :=
      hext.tail
    rw [sizeAndType, Checked.run_bind, eatByte_reads h]
    simp only [htype, if_pos (show UInt8.ofNat 0 = 0 from rfl), Checked.run_bind,
      Checked.run_pure, eatByte_reads hext, toNat_ofNat (show t - 7 < 256 by omega),
      sizeFromCtrlByte_reads hn hbits hrest]
    rw [Nat.sub_add_cancel (by omega), Decoder.skip_skip, Decoder.skip_skip, List.length_cons,
      List.length_cons, Nat.add_comm 1, Nat.add_comm 1]

/-! ## Scalars -/

theorem foldOctets_eq {w : Nat} (octets : Bytes) :
    foldOctets w octets = BitVec.ofNat w (beValue octets) := by
  induction octets using List.reverseRecOn with
  | nil => rfl
  | append_singleton octets b ih =>
    have hstep : foldOctets w (octets ++ [b]) =
        (foldOctets w octets <<< 8) ||| BitVec.ofNat w b.toNat := by
      simp [foldOctets]
    rw [hstep, ih, beValue_concat, show (256 : Nat) = 2 ^ 8 by norm_num, ← Nat.shiftLeft_eq,
      Nat.shiftLeft_add_eq_or_of_lt b.toNat_lt]
    apply BitVec.eq_of_toNat_eq
    rw [BitVec.toNat_or, BitVec.toNat_shiftLeft, BitVec.toNat_ofNat, BitVec.toNat_ofNat,
      BitVec.toNat_ofNat, Nat.or_mod_two_pow, Nat.shiftLeft_eq, Nat.shiftLeft_eq,
      Nat.mod_mul_mod]

theorem decodeInteger_reads {w : Nat} (name : String) (hxs : xs.length ≤ w / 8)
    (h : d.Reads (xs ++ rest)) :
    decodeInteger w name xs.length d =
      (.ok (BitVec.ofNat w (beValue xs)), d.skip xs.length) := by
  rw [decodeInteger, if_pos hxs, Checked.run_bind, ensureAvailable_reads h]
  simp only [Checked.run_bind, takeSlice_reads h, Checked.run_pure, foldOctets_eq]

theorem decodeIeee_reads {w : Nat} (name : String) (hxs : xs.length = w / 8)
    (h : d.Reads (xs ++ rest)) :
    decodeIeee w name xs.length d =
      (.ok (BitVec.ofNat w (beValue xs)), d.skip xs.length) := by
  rw [decodeIeee, Checked.run_bind, ensureAvailable_reads h]
  simp only [Checked.run_bind, slice_reads h, if_pos hxs, takeSlice_reads h, Checked.run_pure]

theorem decodeBytes_reads (h : d.Reads (xs ++ rest)) (hpayload : xs.length ≤ d.payloadLeft) :
    decodeBytes xs.length d =
      (.ok xs, { d.skip xs.length with payloadLeft := d.payloadLeft - xs.length }) := by
  have hcharged : Decoder.Reads { d with payloadLeft := d.payloadLeft - xs.length } (xs ++ rest) :=
    ⟨h.inside, h.drop_eq⟩
  rw [decodeBytes, Checked.run_bind, chargePayload, if_pos hpayload]
  simp only [Checked.run_bind, ensureAvailable_reads hcharged, takeSlice_reads hcharged]
  rfl

theorem decodeString_reads {s : String} (h : d.Reads (utf8 s ++ rest))
    (hpayload : (utf8 s).length ≤ d.payloadLeft) :
    decodeString (utf8 s).length d = (.ok s,
      { d.skip (utf8 s).length with payloadLeft := d.payloadLeft - (utf8 s).length }) := by
  have hcharged : Decoder.Reads { d with payloadLeft := d.payloadLeft - (utf8 s).length }
      (utf8 s ++ rest) := ⟨h.inside, h.drop_eq⟩
  rw [decodeString, Checked.run_bind, chargePayload, if_pos hpayload]
  simp only [Checked.run_bind, ensureAvailable_reads hcharged, takeSlice_reads hcharged,
    fromUtf8_utf8]
  rfl

/-! ## One value -/

abbrev element (levels : Nat) : Decode Visited := decodeAnyAround (decodeAnyInner levels none)

def Decoder.entered (d : Decoder) : Decoder :=
  { d with valuesLeft := d.valuesLeft - 1, depth := min (d.depth + 1) USIZE_MAX }

theorem Decoder.entered_levels {levels : Nat} (h : d.limits.maxDepth = d.depth + (levels + 1)) :
    d.entered.limits.maxDepth = d.entered.depth + levels := by
  have hfits := d.limits.depthFits
  simp only [entered]
  omega

theorem chargeValue_eq_ok {u : Unit} {d' : Decoder} : chargeValue d = (.ok u, d') ↔
    0 < d.valuesLeft ∧ { d with valuesLeft := d.valuesLeft - 1 } = d' := by
  rw [chargeValue]
  split <;> simp <;> omega

theorem enterDepth_eq_ok {u : Unit} {d' : Decoder} : enterDepth d = (.ok u, d') ↔
    min (d.depth + 1) USIZE_MAX ≤ d.limits.maxDepth ∧
      { d with depth := min (d.depth + 1) USIZE_MAX } = d' := by
  rw [enterDepth]
  simp only
  split <;> simp <;> omega

theorem chargePayload_eq_ok {n : Nat} {u : Unit} {d' : Decoder} :
    chargePayload n d = (.ok u, d') ↔
      n ≤ d.payloadLeft ∧ { d with payloadLeft := d.payloadLeft - n } = d' := by
  rw [chargePayload]
  split <;> simp <;> omega

theorem decodeAnyAround_eq_ok {inner : Decode Visited} {result : Visited} {d' : Decoder} :
    decodeAnyAround inner d = (.ok result, d') ↔ 0 < d.valuesLeft ∧
      min (d.depth + 1) USIZE_MAX ≤ d.limits.maxDepth ∧
      ∃ d₁, inner d.entered = (.ok result, d₁) ∧ { d₁ with depth := d.depth } = d' := by
  constructor
  · intro h
    obtain ⟨_, d₁, hcharge, h⟩ := Checked.bind_eq_ok h
    obtain ⟨hvalues, rfl⟩ := chargeValue_eq_ok.mp hcharge
    obtain ⟨_, d₂, henter, hrestoring⟩ := Checked.bind_eq_ok h
    obtain ⟨hdepth, rfl⟩ := enterDepth_eq_ok.mp henter
    obtain ⟨hinner, hrestored⟩ := Prod.mk.inj hrestoring
    exact ⟨hvalues, hdepth, _, Prod.ext hinner rfl, hrestored⟩
  · rintro ⟨hvalues, hdepth, d₁, hinner, rfl⟩
    have hcharge := (chargeValue_eq_ok (u := ())).mpr ⟨hvalues, rfl⟩
    have henter : enterDepth { d with valuesLeft := d.valuesLeft - 1 } = (.ok (), d.entered) :=
      enterDepth_eq_ok.mpr ⟨hdepth, rfl⟩
    rw [decodeAnyAround, Checked.run_bind, hcharge]
    simp only [withDecoder, restoringDepth, Checked.run_bind, henter, hinner]

theorem decodeAnyInner_header {levels t n : Nat} (ht : 1 < t) (ht' : t < 256)
    (hn : n < MAX_PAYLOAD_SIZE) (hreads : d.Reads (ctrlAndSize t n ++ rest)) :
    decodeAnyInner (levels + 1) none d =
      decodeValue (element levels) n t (d.skip (ctrlAndSize t n).length) := by
  rw [decodeAnyInner, Checked.run_bind, sizeAndType_reads (by omega) ht' hn hreads]
  simp only [if_neg (show t ≠ 1 by omega), Checked.run_bind]
  split <;> simp_all

theorem decodeArray_eq_ok {inner : Decode Visited} {size : Nat} {result : Visited}
    {d' : Decoder} : decodeArray inner size d = (.ok result, d') ↔ size ≤ d.valuesLeft ∧
      ∃ elements, visitSeq inner size d = (.ok elements, d') ∧ .array elements = result := by
  rw [decodeArray, withDecoder]
  split
  · next h => simp [show ¬ size ≤ d.valuesLeft by omega]
  · next h =>
    constructor
    · intro hrun
      obtain ⟨elements, _, hvisit, hrun⟩ := Checked.bind_eq_ok hrun
      obtain ⟨hresult, rfl⟩ := Prod.mk.inj hrun
      exact ⟨by omega, elements, hvisit, Outcome.ok.inj hresult⟩
    · rintro ⟨-, elements, hvisit, rfl⟩
      rw [Checked.run_bind, hvisit]
      rfl

theorem decodeMap_eq_ok {inner : Decode Visited} {size : Nat} {result : Visited}
    {d' : Decoder} : decodeMap inner size d = (.ok result, d') ↔ size * 2 ≤ d.valuesLeft ∧
      ∃ entries, visitMap inner (size * 2) d = (.ok entries, d') ∧ .map entries = result := by
  rw [decodeMap, withDecoder]
  split
  · next h => simp [show ¬ size * 2 ≤ d.valuesLeft by omega]
  · next h =>
    constructor
    · intro hrun
      obtain ⟨entries, _, hvisit, hrun⟩ := Checked.bind_eq_ok hrun
      obtain ⟨hresult, rfl⟩ := Prod.mk.inj hrun
      exact ⟨by omega, entries, hvisit, Outcome.ok.inj hresult⟩
    · rintro ⟨-, entries, hvisit, rfl⟩
      rw [Checked.run_bind, hvisit]
      rfl

theorem element_header {levels t n : Nat} {result : Visited} {d' : Decoder}
    (ht : 1 < t) (ht' : t < 256) (hn : n < MAX_PAYLOAD_SIZE)
    (hreads : d.Reads (ctrlAndSize t n ++ rest))
    (hdepth : d.limits.maxDepth = d.depth + levels) :
    element levels d = (.ok result, d') ↔ 0 < d.valuesLeft ∧ ∃ k d₁, levels = k + 1 ∧
      decodeValue (element k) n t (d.entered.skip (ctrlAndSize t n).length) = (.ok result, d₁) ∧
      { d₁ with depth := d.depth } = d' := by
  have hentered : d.entered.Reads (ctrlAndSize t n ++ rest) := ⟨hreads.inside, hreads.drop_eq⟩
  rw [decodeAnyAround_eq_ok]
  refine and_congr_right fun _ => ?_
  cases levels with
  | zero => simp [decodeAnyInner]
  | succ k =>
    rw [decodeAnyInner_header ht ht' hn hentered]
    constructor
    · rintro ⟨-, d₁, hvalue, hd'⟩
      exact ⟨k, d₁, rfl, hvalue, hd'⟩
    · rintro ⟨k', d₁, hk, hvalue, hd'⟩
      obtain rfl := Nat.succ.inj hk
      exact ⟨by omega, d₁, hvalue, hd'⟩

theorem element_body {levels t n payload : Nat} {b body : Bytes} {result : Visited}
    (ht : 1 < t) (ht' : t < 256) (hn : n < MAX_PAYLOAD_SIZE) (hb : b = ctrlAndSize t n ++ body)
    (hreads : d.Reads (b ++ rest)) (hdepth : d.limits.maxDepth = d.depth + levels)
    (hlevels : 1 ≤ levels) (hvalues : 0 < d.valuesLeft) (hpayload : payload ≤ d.payloadLeft)
    (hvalue : ∀ inner d', Decoder.Reads d' (body ++ rest) → payload ≤ d'.payloadLeft →
      decodeValue inner n t d' = (.ok result,
        { d'.skip body.length with payloadLeft := d'.payloadLeft - payload })) :
    element levels d = (.ok result, d.after b.length 1 payload) := by
  subst hb
  obtain ⟨levels, rfl⟩ : ∃ k, levels = k + 1 := ⟨levels - 1, by omega⟩
  rw [List.append_assoc] at hreads
  have hbody : (d.entered.skip (ctrlAndSize t n).length).Reads (body ++ rest) :=
    hreads.behind _ rfl rfl
  refine (element_header ht ht' hn hreads hdepth).mpr
    ⟨hvalues, levels, _, rfl, hvalue _ _ hbody hpayload, ?_⟩
  simp [Decoder.after, Decoder.skip, Decoder.entered, Nat.add_assoc]

theorem element_string {s : String} {b : Bytes} {levels : Nat} (henc : writeStrRaw s = .ok b)
    (hreads : d.Reads (b ++ rest)) (hdepth : d.limits.maxDepth = d.depth + levels)
    (hlevels : 1 ≤ levels) (hvalues : 0 < d.valuesLeft)
    (hpayload : (utf8 s).length ≤ d.payloadLeft) :
    element levels d = (.ok (.string s), d.after b.length 1 (utf8 s).length) := by
  obtain ⟨hn, hb⟩ := writeStrRaw_eq_ok.mp henc
  apply element_body (by omega) (by omega) hn hb hreads hdepth hlevels hvalues hpayload
  intro inner d' h hpayload'
  rw [decodeValue, Checked.run_bind, decodeString_reads h hpayload']
  rfl

theorem element_bytes {octets b : Bytes} {levels : Nat} (henc : writeBytesRaw octets = .ok b)
    (hreads : d.Reads (b ++ rest)) (hdepth : d.limits.maxDepth = d.depth + levels)
    (hlevels : 1 ≤ levels) (hvalues : 0 < d.valuesLeft)
    (hpayload : octets.length ≤ d.payloadLeft) :
    element levels d = (.ok (.bytes octets), d.after b.length 1 octets.length) := by
  obtain ⟨hn, hb⟩ := writeBytesRaw_eq_ok.mp henc
  apply element_body (by omega) (by omega) hn hb hreads hdepth hlevels hvalues hpayload
  intro inner d' h hpayload'
  rw [decodeValue, Checked.run_bind, decodeBytes_reads h hpayload']
  rfl

theorem element_integer {w t levels : Nat} {name : String} {n : BitVec w} (hw : 8 ∣ w)
    (hsmall : w < 232) (ht : 1 < t) (ht' : t < 256) {wrap : BitVec w → Visited}
    (hwrap : ∀ inner size d', decodeValue inner size t d' =
      (do return wrap (← decodeInteger w name size) : Decode Visited) d')
    (hreads : d.Reads (serializeInteger t n ++ rest))
    (hdepth : d.limits.maxDepth = d.depth + levels) (hlevels : 1 ≤ levels)
    (hvalues : 0 < d.valuesLeft) :
    element levels d = (.ok (wrap n), d.after (serializeInteger t n).length 1 0) := by
  have hlength := length_pushOctets n.toNat (w / 8 - leadingZeros n / 8)
  have hmax : MAX_PAYLOAD_SIZE = 16843037 := rfl
  apply element_body ht ht' (by omega) rfl hreads hdepth hlevels hvalues (Nat.zero_le _)
  intro inner d' h _
  have hread := @decodeInteger_reads _ _ _ w name (by omega) h
  rw [hlength, beValue_pushOctets, Nat.mod_eq_of_lt (lt_pow_size hw n), BitVec.ofNat_toNat,
    BitVec.setWidth_eq] at hread
  rw [hwrap, Checked.run_bind, hread, hlength]
  rfl

theorem element_ieee {w t levels : Nat} {name : String} {bits : BitVec w} (hw : 8 ∣ w)
    (hsmall : w < 232) (ht : 1 < t) (ht' : t < 256) {wrap : BitVec w → Visited}
    (hwrap : ∀ inner size d', decodeValue inner size t d' =
      (do return wrap (← decodeIeee w name size) : Decode Visited) d') {b : Bytes}
    (hb : b = ctrlAndSize t (w / 8) ++ fixedOctets (w / 8) bits.toNat)
    (hreads : d.Reads (b ++ rest)) (hdepth : d.limits.maxDepth = d.depth + levels)
    (hlevels : 1 ≤ levels) (hvalues : 0 < d.valuesLeft) :
    element levels d = (.ok (wrap bits), d.after b.length 1 0) := by
  have hmax : MAX_PAYLOAD_SIZE = 16843037 := rfl
  apply element_body ht ht' (by omega) hb hreads hdepth hlevels hvalues (Nat.zero_le _)
  intro inner d' h _
  have hread := decodeIeee_reads name (fixedOctets_length _ _) h
  have hbits : bits.toNat % 256 ^ (w / 8) = bits.toNat := by
    rw [show (256 : Nat) = 2 ^ 8 by norm_num, ← pow_mul, Nat.mul_div_cancel' hw]
    exact Nat.mod_eq_of_lt bits.isLt
  rw [fixedOctets_length, beValue_fixedOctets, hbits, BitVec.ofNat_toNat,
    BitVec.setWidth_eq] at hread
  rw [hwrap, Checked.run_bind, hread, fixedOctets_length]
  rfl

/-! ## Containers -/

theorem Decoder.after_after (d : Decoder) (l v p l' v' p' : Nat) :
    (d.after l v p).after l' v' p' = d.after (l + l') (v + v') (p + p') := by
  simp only [after, Nat.add_assoc, Nat.sub_sub]

theorem length_le_entriesCount (entries : List (String × Value)) :
    entries.length * 2 ≤ entriesCount entries := by
  induction entries with
  | nil => simp
  | cons entry rest ih =>
    obtain ⟨k, v⟩ := entry
    have : 0 < v.valueCount := by cases v <;> simp [Value.valueCount]
    rw [entriesCount, List.length_cons]
    omega

theorem length_le_elementsCount (elements : List Value) :
    elements.length ≤ elementsCount elements := by
  induction elements with
  | nil => simp
  | cons v rest ih =>
    have : 0 < v.valueCount := by cases v <;> simp [Value.valueCount]
    rw [elementsCount, List.length_cons]
    omega

mutual

theorem element_encoded (v : Value) (levels : Nat) {b rest : Bytes} {d : Decoder}
    (hfree : v.pointerFree) (henc : serializeValue v = .ok b) (hreads : d.Reads (b ++ rest))
    (hdepth : d.limits.maxDepth = d.depth + levels) (hadmits : d.Admits v) :
    element levels d = (.ok v.visited, d.after b.length v.valueCount v.payloadBytes) := by
  obtain ⟨hnest, hcount, hpayload⟩ := hadmits
  cases v with
  | pointer target => simp [Value.pointerFree] at hfree
  | string s =>
    simp only [Value.nesting, Value.valueCount, Value.payloadBytes] at hnest hcount hpayload
    exact element_string (by simpa [serializeValue] using henc) hreads hdepth (by omega)
      (by omega) hpayload
  | bytes octets =>
    simp only [Value.nesting, Value.valueCount, Value.payloadBytes] at hnest hcount hpayload
    exact element_bytes (by simpa [serializeValue] using henc) hreads hdepth (by omega)
      (by omega) hpayload
  | float64 bits | float32 bits =>
    simp only [Value.nesting, Value.valueCount] at hnest hcount
    exact element_ieee (by decide) (by decide) (by decide) (by decide) (fun _ _ _ => rfl)
      (Except.ok.inj henc).symm hreads hdepth (by omega) (by omega)
  | uint16 n | uint32 n | int32 n | uint64 n | uint128 n =>
    simp only [Value.nesting, Value.valueCount] at hnest hcount
    obtain rfl := Except.ok.inj henc
    exact element_integer (by decide) (by decide) (by decide) (by decide) (fun _ _ _ => rfl)
      hreads hdepth (by omega) (by omega)
  | bool flag =>
    simp only [Value.nesting, Value.valueCount] at hnest hcount
    have hmax : MAX_PAYLOAD_SIZE = 16843037 := rfl
    apply element_body (by decide) (by decide) (by split <;> omega)
      (Except.ok.inj henc |>.symm.trans (List.append_nil _).symm) hreads hdepth (by omega)
      (by omega) (Nat.zero_le _)
    intro inner d' _ _
    cases flag <;> rfl
  | map entries =>
    simp only [Value.nesting, Value.valueCount, Value.payloadBytes] at hnest hcount hpayload
    obtain ⟨hn, body, hbody, rfl⟩ := serializeMap_eq_ok.mp henc
    obtain ⟨levels, rfl⟩ : ∃ k, levels = k + 1 := ⟨levels - 1, by omega⟩
    rw [List.append_assoc] at hreads
    have hsize := length_le_entriesCount entries
    have hentries := visitMap_encoded entries levels
        (by simpa [Value.pointerFree] using hfree) hbody
      (hreads.behind (d.entered.skip _) rfl rfl) (Decoder.entered_levels hdepth) (by omega)
      (by simp only [Decoder.skip, Decoder.entered]; omega) hpayload
    have hvalue := decodeMap_eq_ok.mpr
      ⟨by simp only [Decoder.skip, Decoder.entered]; omega, _, hentries, rfl⟩
    refine (element_header (by decide) (by decide) hn hreads hdepth).mpr
      ⟨by omega, levels, _, rfl, hvalue, ?_⟩
    simp [Decoder.after, Decoder.skip, Decoder.entered, Value.valueCount, Value.payloadBytes,
      Nat.add_assoc, Nat.sub_sub]
  | slice elements =>
    simp only [Value.nesting, Value.valueCount, Value.payloadBytes] at hnest hcount hpayload
    obtain ⟨hn, body, hbody, rfl⟩ := serializeSlice_eq_ok.mp henc
    obtain ⟨levels, rfl⟩ : ∃ k, levels = k + 1 := ⟨levels - 1, by omega⟩
    rw [List.append_assoc] at hreads
    have hsize := length_le_elementsCount elements
    have helements := visitSeq_encoded elements levels
        (by simpa [Value.pointerFree] using hfree) hbody
      (hreads.behind (d.entered.skip _) rfl rfl) (Decoder.entered_levels hdepth) (by omega)
      (by simp only [Decoder.skip, Decoder.entered]; omega) hpayload
    have hvalue := decodeArray_eq_ok.mpr
      ⟨by simp only [Decoder.skip, Decoder.entered]; omega, _, helements, rfl⟩
    refine (element_header (by decide) (by decide) hn hreads hdepth).mpr
      ⟨by omega, levels, _, rfl, hvalue, ?_⟩
    simp [Decoder.after, Decoder.skip, Decoder.entered, Value.valueCount, Value.payloadBytes,
      Nat.add_assoc, Nat.sub_sub]

theorem visitMap_encoded (entries : List (String × Value)) (levels : Nat) {b rest : Bytes}
    {d : Decoder} (hfree : entriesPointerFree entries) (henc : serializeEntries entries = .ok b)
    (hreads : d.Reads (b ++ rest)) (hdepth : d.limits.maxDepth = d.depth + levels)
    (hnest : entriesNesting entries ≤ levels) (hcount : entriesCount entries ≤ d.valuesLeft)
    (hpayload : entriesPayload entries ≤ d.payloadLeft) :
    visitMap (element levels) (entries.length * 2) d = (.ok (entriesVisited entries),
      d.after b.length (entriesCount entries) (entriesPayload entries)) := by
  match entries with
  | [] =>
    obtain rfl := Except.ok.inj henc
    rfl
  | (k, v) :: rest' =>
    obtain ⟨key, val, tail, hkey, hval, htail, rfl⟩ := serializeEntries_cons_eq_ok.mp henc
    rw [entriesPointerFree, Bool.and_eq_true] at hfree
    simp only [entriesNesting, entriesCount, entriesPayload] at hnest hcount hpayload
    rw [List.append_assoc, List.append_assoc] at hreads
    have hreadKey := element_string hkey hreads hdepth (by omega) (by omega) (by omega)
    have hreads' := hreads.behind (d.after key.length 1 (utf8 k).length) rfl rfl
    have hreadVal := element_encoded v levels hfree.1 hval hreads' hdepth
      ⟨by simp only [Decoder.after]; omega, by simp only [Decoder.after]; omega,
        by simp only [Decoder.after]; omega⟩
    have hreads'' := hreads'.behind ((d.after key.length 1 (utf8 k).length).after
      val.length v.valueCount v.payloadBytes) rfl rfl
    have hreadRest := visitMap_encoded rest' levels hfree.2 htail hreads'' hdepth
      (by omega) (by simp only [Decoder.after]; omega) (by simp only [Decoder.after]; omega)
    rw [List.length_cons, Nat.add_mul, visitMap, Checked.run_bind, hreadKey]
    simp only [Checked.run_bind, hreadVal, hreadRest, Checked.run_pure]
    simp only [entriesVisited, entriesCount, entriesPayload, Decoder.after_after,
      List.length_append]

theorem visitSeq_encoded (elements : List Value) (levels : Nat) {b rest : Bytes}
    {d : Decoder} (hfree : elementsPointerFree elements)
    (henc : serializeElements elements = .ok b) (hreads : d.Reads (b ++ rest))
    (hdepth : d.limits.maxDepth = d.depth + levels) (hnest : elementsNesting elements ≤ levels)
    (hcount : elementsCount elements ≤ d.valuesLeft)
    (hpayload : elementsPayload elements ≤ d.payloadLeft) :
    visitSeq (element levels) elements.length d = (.ok (elementsVisited elements),
      d.after b.length (elementsCount elements) (elementsPayload elements)) := by
  match elements with
  | [] =>
    obtain rfl := Except.ok.inj henc
    rfl
  | v :: rest' =>
    obtain ⟨val, tail, hval, htail, rfl⟩ := serializeElements_cons_eq_ok.mp henc
    rw [elementsPointerFree, Bool.and_eq_true] at hfree
    simp only [elementsNesting, elementsCount, elementsPayload] at hnest hcount hpayload
    rw [List.append_assoc] at hreads
    have hreadVal := element_encoded v levels hfree.1 hval hreads hdepth
      ⟨by omega, by omega, by omega⟩
    have hreads' := hreads.behind (d.after val.length v.valueCount v.payloadBytes) rfl rfl
    have hreadRest := visitSeq_encoded rest' levels hfree.2 htail hreads' hdepth
      (by omega) (by simp only [Decoder.after]; omega) (by simp only [Decoder.after]; omega)
    rw [List.length_cons, visitSeq, Checked.run_bind, hreadVal]
    simp only [Checked.run_bind, hreadRest, Checked.run_pure]
    simp only [elementsVisited, elementsCount, elementsPayload, Decoder.after_after,
      List.length_append]

end

theorem decodeAny_eq_element (d : Decoder) :
    decodeAny d = element (d.limits.maxDepth - d.depth) d := rfl

theorem decodeAny_encoded (v : Value) {b rest : Bytes} {d : Decoder} (hfree : v.pointerFree)
    (henc : serializeValue v = .ok b) (hreads : d.Reads (b ++ rest)) (hadmits : d.Admits v) :
    decodeAny d = (.ok v.visited, d.after b.length v.valueCount v.payloadBytes) := by
  have hdepth := hadmits.depth
  rw [decodeAny_eq_element]
  exact element_encoded v _ hfree henc hreads (by omega) hadmits

/-! ## The limits that reading takes -/

theorem of_element_scalar {levels t n : Nat} {b body : Bytes} {result : Visited} {d d' : Decoder}
    {rest : Bytes} (ht : 1 < t) (ht' : t < 256) (hn : n < MAX_PAYLOAD_SIZE)
    (hb : b = ctrlAndSize t n ++ body) (hreads : d.Reads (b ++ rest))
    (hdepth : d.limits.maxDepth = d.depth + levels) (h : element levels d = (.ok result, d')) :
    1 ≤ levels ∧ 1 ≤ d.valuesLeft := by
  subst hb
  rw [List.append_assoc] at hreads
  obtain ⟨hvalues, k, _, rfl, -, -⟩ := (element_header ht ht' hn hreads hdepth).mp h
  exact ⟨by omega, hvalues⟩

theorem of_element_string {s : String} {b rest : Bytes} {levels : Nat} {result : Visited}
    {d d' : Decoder} (henc : writeStrRaw s = .ok b) (hreads : d.Reads (b ++ rest))
    (hdepth : d.limits.maxDepth = d.depth + levels) (h : element levels d = (.ok result, d')) :
    1 ≤ levels ∧ 1 ≤ d.valuesLeft ∧ (utf8 s).length ≤ d.payloadLeft := by
  obtain ⟨hn, rfl⟩ := writeStrRaw_eq_ok.mp henc
  rw [List.append_assoc] at hreads
  obtain ⟨hvalues, k, _, rfl, hvalue, -⟩ :=
    (element_header (by decide) (by decide) hn hreads hdepth).mp h
  obtain ⟨_, _, hstring, -⟩ := Checked.bind_eq_ok hvalue
  obtain ⟨_, _, hcharge, -⟩ := Checked.bind_eq_ok hstring
  exact ⟨by omega, hvalues, (chargePayload_eq_ok.mp hcharge).1⟩

theorem of_element_bytes {octets b rest : Bytes} {levels : Nat} {result : Visited}
    {d d' : Decoder} (henc : writeBytesRaw octets = .ok b) (hreads : d.Reads (b ++ rest))
    (hdepth : d.limits.maxDepth = d.depth + levels) (h : element levels d = (.ok result, d')) :
    1 ≤ levels ∧ 1 ≤ d.valuesLeft ∧ octets.length ≤ d.payloadLeft := by
  obtain ⟨hn, rfl⟩ := writeBytesRaw_eq_ok.mp henc
  rw [List.append_assoc] at hreads
  obtain ⟨hvalues, k, _, rfl, hvalue, -⟩ :=
    (element_header (by decide) (by decide) hn hreads hdepth).mp h
  obtain ⟨_, _, hbytes, -⟩ := Checked.bind_eq_ok hvalue
  obtain ⟨_, _, hcharge, -⟩ := Checked.bind_eq_ok hbytes
  exact ⟨by omega, hvalues, (chargePayload_eq_ok.mp hcharge).1⟩

theorem of_element_integer {w levels t : Nat} {n : BitVec w} {result : Visited}
    {d d' : Decoder} {rest : Bytes} (hw : w < 232) (ht : 1 < t) (ht' : t < 256)
    (hreads : d.Reads (serializeInteger t n ++ rest))
    (hdepth : d.limits.maxDepth = d.depth + levels) (h : element levels d = (.ok result, d')) :
    1 ≤ levels ∧ 1 ≤ d.valuesLeft := by
  have hmax : MAX_PAYLOAD_SIZE = 16843037 := rfl
  exact of_element_scalar ht ht' (by omega) rfl hreads hdepth h

mutual

theorem admits_of_element (v : Value) (levels : Nat) {b rest : Bytes} {d d' : Decoder}
    {result : Visited} (hfree : v.pointerFree) (henc : serializeValue v = .ok b)
    (hreads : d.Reads (b ++ rest)) (hdepth : d.limits.maxDepth = d.depth + levels)
    (h : element levels d = (.ok result, d')) : d.Admits v := by
  have hmax : MAX_PAYLOAD_SIZE = 16843037 := rfl
  cases v with
  | pointer target => simp [Value.pointerFree] at hfree
  | string s =>
    obtain ⟨hlevels, hvalues, hpayload⟩ :=
      of_element_string (by simpa [serializeValue] using henc) hreads hdepth h
    exact ⟨by simp only [Value.nesting]; omega, hvalues, hpayload⟩
  | bytes octets =>
    obtain ⟨hlevels, hvalues, hpayload⟩ :=
      of_element_bytes (by simpa [serializeValue] using henc) hreads hdepth h
    exact ⟨by simp only [Value.nesting]; omega, hvalues, hpayload⟩
  | float64 bits | float32 bits =>
    obtain ⟨hlevels, hvalues⟩ := of_element_scalar (by decide) (by decide) (by omega)
      (Except.ok.inj henc).symm hreads hdepth h
    exact ⟨by simp only [Value.nesting]; omega, hvalues, Nat.zero_le _⟩
  | uint16 n | uint32 n | int32 n | uint64 n | uint128 n =>
    obtain rfl := Except.ok.inj henc
    obtain ⟨hlevels, hvalues⟩ := of_element_integer (by decide) (by decide) (by decide)
      hreads hdepth h
    exact ⟨by simp only [Value.nesting]; omega, hvalues, Nat.zero_le _⟩
  | bool flag =>
    obtain ⟨hlevels, hvalues⟩ := of_element_scalar (by decide) (by decide)
      (by split <;> omega) (Except.ok.inj henc |>.symm.trans (List.append_nil _).symm)
      hreads hdepth h
    exact ⟨by simp only [Value.nesting]; omega, hvalues, Nat.zero_le _⟩
  | map entries =>
    obtain ⟨hn, body, hbody, rfl⟩ := serializeMap_eq_ok.mp henc
    rw [List.append_assoc] at hreads
    obtain ⟨hvalues, k, d₁, rfl, hvalue, -⟩ :=
      (element_header (by decide) (by decide) hn hreads hdepth).mp h
    obtain ⟨-, visited, hvisit, -⟩ := decodeMap_eq_ok.mp hvalue
    obtain ⟨hnest, hcount, hpayload⟩ := admits_of_visitMap entries k
      (by simpa [Value.pointerFree] using hfree) hbody
      (hreads.behind (d.entered.skip _) rfl rfl) (Decoder.entered_levels hdepth) hvisit
    simp only [Decoder.skip, Decoder.entered] at hcount hpayload
    exact ⟨by simp only [Value.nesting]; omega, by simp only [Value.valueCount]; omega,
      hpayload⟩
  | slice elements =>
    obtain ⟨hn, body, hbody, rfl⟩ := serializeSlice_eq_ok.mp henc
    rw [List.append_assoc] at hreads
    obtain ⟨hvalues, k, d₁, rfl, hvalue, -⟩ :=
      (element_header (by decide) (by decide) hn hreads hdepth).mp h
    obtain ⟨-, visited, hvisit, -⟩ := decodeArray_eq_ok.mp hvalue
    obtain ⟨hnest, hcount, hpayload⟩ := admits_of_visitSeq elements k
      (by simpa [Value.pointerFree] using hfree) hbody
      (hreads.behind (d.entered.skip _) rfl rfl) (Decoder.entered_levels hdepth) hvisit
    simp only [Decoder.skip, Decoder.entered] at hcount hpayload
    exact ⟨by simp only [Value.nesting]; omega, by simp only [Value.valueCount]; omega,
      hpayload⟩

theorem admits_of_visitMap (entries : List (String × Value)) (levels : Nat) {b rest : Bytes}
    {d d' : Decoder} {visited : List (Visited × Visited)} (hfree : entriesPointerFree entries)
    (henc : serializeEntries entries = .ok b) (hreads : d.Reads (b ++ rest))
    (hdepth : d.limits.maxDepth = d.depth + levels)
    (h : visitMap (element levels) (entries.length * 2) d = (.ok visited, d')) :
    entriesNesting entries ≤ levels ∧ entriesCount entries ≤ d.valuesLeft ∧
      entriesPayload entries ≤ d.payloadLeft := by
  match entries with
  | [] => exact ⟨Nat.zero_le _, Nat.zero_le _, Nat.zero_le _⟩
  | (k, v) :: rest' =>
    obtain ⟨key, val, tail, hkey, hval, htail, rfl⟩ := serializeEntries_cons_eq_ok.mp henc
    rw [entriesPointerFree, Bool.and_eq_true] at hfree
    rw [List.append_assoc, List.append_assoc] at hreads
    rw [List.length_cons, Nat.add_mul, visitMap] at h
    obtain ⟨_, _, hreadKey, h⟩ := Checked.bind_eq_ok h
    obtain ⟨hlevels, hvalues, hpayload⟩ := of_element_string hkey hreads hdepth hreadKey
    rw [element_string hkey hreads hdepth hlevels hvalues hpayload] at hreadKey
    obtain ⟨-, rfl⟩ := Prod.mk.inj hreadKey
    have hreads' := hreads.behind (d.after key.length 1 (utf8 k).length) rfl rfl
    obtain ⟨_, _, hreadVal, h⟩ := Checked.bind_eq_ok h
    have hadmits := admits_of_element v levels hfree.1 hval hreads' hdepth hreadVal
    rw [element_encoded v levels hfree.1 hval hreads' hdepth hadmits] at hreadVal
    obtain ⟨-, rfl⟩ := Prod.mk.inj hreadVal
    have hreads'' := hreads'.behind ((d.after key.length 1 (utf8 k).length).after
      val.length v.valueCount v.payloadBytes) rfl rfl
    obtain ⟨_, _, hreadRest, -⟩ := Checked.bind_eq_ok h
    obtain ⟨hnest', hcount', hpayload'⟩ :=
      admits_of_visitMap rest' levels hfree.2 htail hreads'' hdepth hreadRest
    obtain ⟨hnest, hcount, hload⟩ := hadmits
    simp only [Decoder.after] at hnest hcount hload hcount' hpayload'
    simp only [entriesNesting, entriesCount, entriesPayload]
    omega

theorem admits_of_visitSeq (elements : List Value) (levels : Nat) {b rest : Bytes}
    {d d' : Decoder} {visited : List Visited} (hfree : elementsPointerFree elements)
    (henc : serializeElements elements = .ok b) (hreads : d.Reads (b ++ rest))
    (hdepth : d.limits.maxDepth = d.depth + levels)
    (h : visitSeq (element levels) elements.length d = (.ok visited, d')) :
    elementsNesting elements ≤ levels ∧ elementsCount elements ≤ d.valuesLeft ∧
      elementsPayload elements ≤ d.payloadLeft := by
  match elements with
  | [] => exact ⟨Nat.zero_le _, Nat.zero_le _, Nat.zero_le _⟩
  | v :: rest' =>
    obtain ⟨val, tail, hval, htail, rfl⟩ := serializeElements_cons_eq_ok.mp henc
    rw [elementsPointerFree, Bool.and_eq_true] at hfree
    rw [List.append_assoc] at hreads
    rw [List.length_cons, visitSeq] at h
    obtain ⟨_, _, hreadVal, h⟩ := Checked.bind_eq_ok h
    have hadmits := admits_of_element v levels hfree.1 hval hreads hdepth hreadVal
    rw [element_encoded v levels hfree.1 hval hreads hdepth hadmits] at hreadVal
    obtain ⟨-, rfl⟩ := Prod.mk.inj hreadVal
    have hreads' := hreads.behind (d.after val.length v.valueCount v.payloadBytes) rfl rfl
    obtain ⟨_, _, hreadRest, -⟩ := Checked.bind_eq_ok h
    obtain ⟨hnest', hcount', hpayload'⟩ :=
      admits_of_visitSeq rest' levels hfree.2 htail hreads' hdepth hreadRest
    obtain ⟨hnest, hcount, hload⟩ := hadmits
    simp only [Decoder.after] at hcount' hpayload'
    simp only [elementsNesting, elementsCount, elementsPayload]
    omega

end

/-- The limits that admit a value are exactly those it can be read with. -/
theorem decodeAny_ok_iff (v : Value) {b rest : Bytes} {d d' : Decoder} {result : Visited}
    (hfree : v.pointerFree) (henc : serializeValue v = .ok b) (hreads : d.Reads (b ++ rest)) :
    decodeAny d = (.ok result, d') ↔ d.Admits v ∧ v.visited = result ∧
      d.after b.length v.valueCount v.payloadBytes = d' := by
  constructor
  · intro h
    have hadmits : d.Admits v := by
      by_cases hdepth : d.depth ≤ d.limits.maxDepth
      · exact admits_of_element v _ hfree henc hreads (by omega) h
      · obtain ⟨-, -, _, hinner, -⟩ := decodeAnyAround_eq_ok.mp h
        rw [Nat.sub_eq_zero_of_le (by omega)] at hinner
        simp [decodeAnyInner] at hinner
    rw [decodeAny_encoded v hfree henc hreads hadmits] at h
    obtain ⟨hresult, hstate⟩ := Prod.mk.inj h
    exact ⟨hadmits, Outcome.ok.inj hresult, hstate⟩
  · rintro ⟨hadmits, rfl, rfl⟩
    exact decodeAny_encoded v hfree henc hreads hadmits

theorem decodeAny_ok_iff_shallow :
    ¬∃ d', decodeAny (.withLimits [2, 4, 160, 1, 7] 0 ⟨1, 4, 3, by decide⟩) =
      (.ok (.array [.u16 0, .bool true]), d') := by
  rintro ⟨d', h⟩
  have hadmits := ((@decodeAny_ok_iff (.slice [.uint16 0, .bool true]) [2, 4, 160, 1, 7] [] _ d' _
    rfl rfl ⟨by decide, rfl⟩).mp h).1
  exact absurd hadmits.depth (by decide)

/-! ## Pointers -/

theorem pointer_ctrl : ∀ form : Fin 4, ∀ high : Fin 8,
    (UInt8.ofNat (32 + 8 * form.val) ||| (UInt8.ofNat high.val &&& 0x07)) >>> 5 = 1 ∧
      ((UInt8.ofNat (32 + 8 * form.val) ||| (UInt8.ofNat high.val &&& 0x07)) &&& 0x1f).toNat =
        8 * form.val + high.val := by
  decide

theorem sizeAndType_pointer {form high : Nat} {octets : Bytes} (hform : form < 4)
    (hhigh : high < 8) (hsmall : 8 * form + high < 29)
    (h : d.Reads ((UInt8.ofNat (32 + 8 * form) ||| (UInt8.ofNat high &&& 0x07)) ::
      (octets ++ rest))) :
    sizeAndType d = (.ok (8 * form + high, 1), d.skip 1) := by
  obtain ⟨htype, hsize⟩ := pointer_ctrl ⟨form, hform⟩ ⟨high, hhigh⟩
  have hread : (d.skip 1).Reads ([] ++ (octets ++ rest)) := h.tail
  have hnone := ensureAvailable_reads hread
  have htake := takeSlice_reads hread
  rw [sizeAndType, Checked.run_bind, eatByte_reads h]
  simp only [htype, if_neg (show (1 : UInt8) ≠ 0 by decide), Checked.run_bind, Checked.run_pure,
    sizeFromCtrlByte, hsize, show 8 * form + high - 28 = 0 by omega]
  simp only [List.length_nil] at hnone htake
  simp only [hnone, htake, if_pos hsmall, Checked.run_pure]
  rfl

theorem decodePointer_reads {form high v : Nat} (hform : form < 4) (hhigh : high < 8)
    (h : d.Reads (pushOctets v (form + 1) ++ rest)) :
    decodePointer (8 * form + high) d =
      (.ok ((if form = 3 then 0 else high) * 256 ^ (form + 1) + v % 256 ^ (form + 1) +
        pointerValueOffset.getD (form + 1) 0), d.skip (form + 1)) := by
  have hbits : (8 * form + high) >>> 3 &&& 0x3 = form ∧ (8 * form + high) &&& 0x7 = high := by
    rw [Nat.shiftRight_eq_div_pow, show (0x3 : Nat) = 2 ^ 2 - 1 from rfl,
      show (0x7 : Nat) = 2 ^ 3 - 1 from rfl, Nat.and_two_pow_sub_one_eq_mod,
      Nat.and_two_pow_sub_one_eq_mod]
    omega
  have havailable := ensureAvailable_reads h
  have htake := takeSlice_reads h
  rw [length_pushOctets] at havailable htake
  rw [decodePointer]
  simp only [hbits.1, hbits.2]
  rw [Checked.run_bind, havailable]
  simp only [Checked.run_bind, htake, Checked.run_pure, toUsize_pushOctets,
    show (form + 1 = 4) = (form = 3) by simp]

theorem pointer_form (form high v : Nat) {p : BitVec 32} (hform : form < 4) (hhigh : high < 8)
    (hsmall : 8 * form + high < 29)
    (hp : encodePointerRaw p = (UInt8.ofNat (32 + 8 * form) ||| (UInt8.ofNat high &&& 0x07)) ::
      pushOctets v (form + 1))
    (hvalue : (if form = 3 then 0 else high) * 256 ^ (form + 1) + v % 256 ^ (form + 1) +
      pointerValueOffset.getD (form + 1) 0 = p.toNat)
    (hreads : d.Reads (encodePointerRaw p ++ rest)) :
    ∃ size d', sizeAndType d = (.ok (size, 1), d') ∧
      decodePointer size d' = (.ok p.toNat, d.skip (encodePointerRaw p).length) := by
  rw [hp] at hreads ⊢
  refine ⟨8 * form + high, d.skip 1, sizeAndType_pointer hform hhigh hsmall hreads, ?_⟩
  rw [decodePointer_reads hform hhigh hreads.tail, hvalue, Decoder.skip_skip, List.length_cons,
    length_pushOctets, Nat.add_comm 1]

theorem pointer_encoded (p : BitVec 32) {d : Decoder} {rest : Bytes}
    (hreads : d.Reads (encodePointerRaw p ++ rest)) :
    ∃ size d', sizeAndType d = (.ok (size, 1), d') ∧
      decodePointer size d' = (.ok p.toNat, d.skip (encodePointerRaw p).length) := by
  have hp := p.isLt
  have hshift : ∀ v k, v >>> k = v / 2 ^ k := Nat.shiftRight_eq_div_pow
  by_cases h₀ : p.toNat < 2048
  · apply pointer_form 0 (p.toNat >>> 8) p.toNat (by omega)
      (by rw [hshift]; omega) (by rw [hshift]; omega) _ _ hreads
    · rw [encodePointerRaw, if_pos h₀, pushOctets_one]
      rfl
    · simp only [pointerValueOffset, hshift]
      simp
      omega
  by_cases h₁ : p.toNat < 526336
  · apply pointer_form 1 ((p.toNat - 2048) >>> 16) (p.toNat - 2048)
      (by omega) (by rw [hshift]; omega) (by rw [hshift]; omega) _ _ hreads
    · rw [encodePointerRaw, if_neg h₀, if_pos h₁, pushOctets_two]
      rfl
    · simp only [pointerValueOffset, hshift]
      simp
      omega
  by_cases h₂ : p.toNat < 134744064
  · apply pointer_form 2 ((p.toNat - 526336) >>> 24) (p.toNat - 526336)
      (by omega) (by rw [hshift]; omega) (by rw [hshift]; omega) _ _ hreads
    · rw [encodePointerRaw, if_neg h₀, if_neg h₁, if_pos h₂, pushOctets_three]
      rfl
    · simp only [pointerValueOffset, hshift]
      simp
      omega
  · apply pointer_form 3 0 p.toNat (by omega) (by omega) (by omega)
      _ _ hreads
    · rw [encodePointerRaw, if_neg h₀, if_neg h₁, if_neg h₂, pushOctets_four]
      rfl
    · simp only [pointerValueOffset]
      simp
      omega

/-! ## Both directions of the codec -/

/--
A decoder whose limits admit a value reads it from its encoding and stops right
behind it, whatever follows; a pointer is read as the number that was written.
-/
theorem value_codec :
    (∀ (v : Value) (b rest : Bytes) (d : Decoder), v.pointerFree → encodeValue v = .ok b →
      d.Reads (b ++ rest) → d.Admits v →
      decodeAny d = (.ok v.visited, d.after b.length v.valueCount v.payloadBytes)) ∧
    ∀ (p : BitVec 32) (rest : Bytes) (d : Decoder), d.Reads (encodePointerRaw p ++ rest) →
      ∃ size d', sizeAndType d = (.ok (size, 1), d') ∧
        decodePointer size d' = (.ok p.toNat, d.skip (encodePointerRaw p).length) := by
  constructor
  · intro v b rest d hfree henc hreads hadmits
    exact decodeAny_encoded v hfree (encodeValue_eq_ok.mp henc) hreads hadmits
  · intro p rest d hreads
    exact pointer_encoded p hreads

theorem value_codec_nested :
    decodeAny (.withLimits [3, 4, 4, 1, 255, 255, 254, 212, 160, 131, 7, 8, 9, 1] 0
      ⟨2, 4, 3, by decide⟩) =
      (.ok (.array [.i32 (-300), .u16 0, .bytes [7, 8, 9]]),
        ⟨[3, 4, 4, 1, 255, 255, 254, 212, 160, 131, 7, 8, 9, 1], 13,
          ⟨2, 4, 3, by decide⟩, 0, 0, 0⟩) :=
  value_codec.1 (.slice [.int32 (-300), .uint16 0, .bytes [7, 8, 9]])
    [3, 4, 4, 1, 255, 255, 254, 212, 160, 131, 7, 8, 9] [1] _ rfl rfl
    ⟨by decide, rfl⟩ ⟨by decide, by decide, by decide⟩

end Stdx.MaxMindDb
