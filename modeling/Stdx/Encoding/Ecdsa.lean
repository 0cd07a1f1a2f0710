import Stdx.Encoding.DerFraming

/-!
# DER signatures

`ECDSA-Sig-Value` of `crypto/src/encoding/ecdsa.rs`: a SEQUENCE of two INTEGERs on
the wire, two coordinates of one width in memory.  The encoder writes minimal
lengths and contents; the decoder takes what the reader takes.
-/

namespace Stdx.Encoding.Ecdsa

open Stdx.Foundation Stdx.Encoding.Der

inductive EcdsaError where
  | der (error : DerError)
  | invalidOutputLength
  | negative
  | integerTooLarge
  deriving DecidableEq, Repr

/-! ## Encoding -/

section Encode

variable (T : Target)

/-- `len.to_be_bytes()` from its first nonzero octet, or its last octet. -/
def significantOctets (len : Nat) : Bytes :=
  let octets := fixedOctets ((T.usizeBits + 7) / 8) len
  octets.drop (min (octets.findIdx (· ≠ 0)) (octets.length - 1))

def pushLength (len : Nat) : Bytes :=
  if len < 0x80 then [UInt8.ofNat len]
  else
    let significant := significantOctets T len
    (0x80 ||| UInt8.ofNat significant.length) :: significant

@[grind =]
def stripZeros : Bytes → Bytes
  | 0 :: next :: rest => stripZeros (next :: rest)
  | value => value

/-- The content octets; `none` is the index `value[0]` out of range. -/
def integerContent (value : Bytes) : Option Bytes :=
  match stripZeros value with
  | [] => none
  | first :: rest =>
    some (if first &&& 0x80 ≠ 0 then 0 :: first :: rest else first :: rest)

def tlv (tag : UInt8) (content : Bytes) : Bytes :=
  tag :: (pushLength T content.length ++ content)

def encodeInteger (value : Bytes) : Option Bytes :=
  (integerContent value).map (tlv T tagInteger)

def encodeBody (r s : Bytes) : Option Bytes := do
  let rOctets ← encodeInteger T r
  let sOctets ← encodeInteger T s
  some (rOctets ++ sOctets)

def encodeSignatureDer (r s : Bytes) : Option Bytes :=
  (encodeBody T r s).map (tlv T tagSequence)

end Encode

/-! ## Decoding -/

/-- A leading zero octet is the sign; the value is copied to the end of `out`, which
the caller has filled with zeros. -/
def writeFixed (value out : Bytes) : Except EcdsaError Bytes :=
  let (negative, value) : Bool × Bytes :=
    match value with
    | [] => (false, [])
    | first :: rest =>
      if first = 0 then (false, rest) else (first &&& 0x80 ≠ 0, first :: rest)
  if negative then .error .negative
  else if value = [] then .ok out
  else if value.length > out.length then .error .integerTooLarge
  else .ok (out.take (out.length - value.length) ++ value)

section Decode

variable (T : Target)

def readSignature (der : Bytes) : Outcome DerError (Bytes × Bytes) :=
  let read : Read (Bytes × Bytes) := do
    let r ← readInteger T
    let s ← readInteger T
    pure (r, s)
  match readSequence T (Reader.new der) with
  | (.err error, _) => .err error
  | (.panic, _) => .panic
  | (.ok seq, outer) =>
    match finish outer with
    | .error error => .err error
    | .ok _ =>
      match read seq with
      | (.err error, _) => .err error
      | (.panic, _) => .panic
      | (.ok values, seq) =>
        match finish seq with
        | .error error => .err error
        | .ok _ => .ok values

/-- Runs on the caller's buffer, which an error may leave partly written. -/
def decodeSignatureDer (der : Bytes) : Checked Bytes EcdsaError Unit := fun rawOut =>
  if rawOut = [] ∨ rawOut.length % 2 ≠ 0 then (.err .invalidOutputLength, rawOut)
  else
    match readSignature T der with
    | .err error => (.err (.der error), rawOut)
    | .panic => (.panic, rawOut)
    | .ok (r, s) =>
      let zeros := List.replicate (rawOut.length / 2) 0
      match writeFixed r zeros with
      | .error error => (.err error, zeros ++ zeros)
      | .ok rOut =>
        match writeFixed s zeros with
        | .error error => (.err error, rOut ++ zeros)
        | .ok sOut => (.ok (), rOut ++ sOut)

end Decode

/-! ## Lengths -/

section Lengths

variable {T : Target}

private theorem drop_findIdx_octets {octets : Bytes} (h : 0 < beValue octets) :
    octets.drop (min (octets.findIdx (· ≠ 0)) (octets.length - 1)) =
      octets.dropWhile (· = 0) := by
  induction octets with
  | nil => rfl
  | cons octet octets ih =>
    by_cases hzero : octet = 0
    · have hrest : 0 < beValue octets := by
        rw [beValue_cons, hzero] at h
        simpa using h
      have hne : octets ≠ [] := by
        rintro rfl
        simp at hrest
      have hpos : 0 < octets.length := List.length_pos_iff.mpr hne
      have hmin : min (octets.findIdx (· ≠ 0) + 1) (octets.length + 1 - 1) =
          min (octets.findIdx (· ≠ 0)) (octets.length - 1) + 1 := by omega
      simp only [List.findIdx_cons, hzero, List.length_cons, ne_eq, not_true_eq_false,
        decide_false, cond_false, List.dropWhile_cons, decide_true, if_true]
      simp only [ne_eq] at hmin ih
      rw [hmin, List.drop_succ_cons, ih hrest]
    · simp [List.findIdx_cons, hzero]

private theorem beValue_dropWhile (octets : Bytes) :
    beValue (octets.dropWhile (· = 0)) = beValue octets := by
  induction octets with
  | nil => rfl
  | cons octet octets ih =>
    by_cases hzero : octet = 0
    · rw [List.dropWhile_cons_of_pos (by simpa using hzero), ih, beValue_cons, hzero]
      simp
    · rw [List.dropWhile_cons_of_neg (by simpa using hzero)]

private theorem head?_dropWhile_ne (octets : Bytes) :
    (octets.dropWhile (· = 0)).head? ≠ some 0 := by
  intro h
  have := List.head?_dropWhile_not (fun octet : UInt8 => decide (octet = 0)) octets
  rw [h] at this
  simp at this

theorem significantOctets_eq {len : Nat} (hpos : 0 < len) (hlen : len < 2 ^ T.usizeBits) :
    significantOctets T len = beOctets len := by
  have hfits : len < 256 ^ ((T.usizeBits + 7) / 8) := by
    refine lt_of_lt_of_le hlen ?_
    rw [show (256 : Nat) = 2 ^ 8 from rfl, ← pow_mul]
    exact Nat.pow_le_pow_right (by decide) (by omega)
  have hvalue : beValue (fixedOctets ((T.usizeBits + 7) / 8) len) = len := by
    rw [beValue_fixedOctets, Nat.mod_eq_of_lt hfits]
  rw [significantOctets, drop_findIdx_octets (by rw [hvalue]; exact hpos)]
  rw [← beOctets_beValue _ (head?_dropWhile_ne _), beValue_dropWhile, hvalue]

theorem pushLength_der {len : Nat} (hlen : len < 2 ^ T.usizeBits)
    (hcount : (beOctets len).length < 127) : DerLength len (pushLength T len) := by
  unfold pushLength
  split
  · next hshort => exact .short len hshort
  · next hlong =>
    rw [significantOctets_eq (by omega) hlen]
    have hfirst : 0x80 ||| UInt8.ofNat (beOctets len).length =
        UInt8.ofNat (128 + (beOctets len).length) := by
      rw [← UInt8.toNat_inj]
      simp only [UInt8.toNat_or, UInt8.toNat_ofNat']
      have hor := Nat.two_pow_add_eq_or_of_lt (i := 7)
        (show (beOctets len).length < 2 ^ 7 by omega) 1
      rw [Nat.mod_eq_of_lt (by omega : (beOctets len).length < 2 ^ 8),
        Nat.mod_eq_of_lt (by omega)]
      simpa using hor.symm
    have hlength := DerLength.long (beOctets len) (by rw [beValue_beOctets]; omega)
      hcount (beOctets_head?_ne_zero len)
    rw [beValue_beOctets] at hlength
    simpa only [hfirst] using hlength

end Lengths

/-! ## Contents -/

/-- What `read_integer` and the sign check of `write_fixed` leave: at least one octet,
no redundant sign octet, the sign bit clear. -/
def Unsigned (content : Bytes) : Prop :=
  ∃ first rest, content = first :: rest ∧ first < 0x80 ∧
    ∀ second tail, rest = second :: tail → first = 0 → 0x80 ≤ second

theorem sign_clear_iff (octet : UInt8) : octet &&& 0x80 = 0 ↔ octet < 0x80 :=
  forall_octet (p := fun octet => octet &&& 0x80 = 0 ↔ octet < 0x80)
    (by decide +kernel) octet

theorem stripZeros_zeros (count : Nat) :
    stripZeros (List.replicate (count + 1) 0) = [0] := by
  induction count with
  | zero => rfl
  | succ count ih =>
    rw [List.replicate_succ, List.replicate_succ, stripZeros, ← List.replicate_succ, ih]

theorem stripZeros_append (count : Nat) {first : UInt8} (rest : Bytes) (h : first ≠ 0) :
    stripZeros (List.replicate count 0 ++ first :: rest) = first :: rest := by
  induction count with
  | zero =>
    rw [List.replicate_zero, List.nil_append, stripZeros]
    intro next rest' heq
    exact h (List.cons.inj heq).1
  | succ count ih =>
    rw [List.replicate_succ, List.cons_append]
    cases count with
    | zero => simpa [stripZeros] using ih
    | succ count =>
      rw [List.replicate_succ, List.cons_append] at ih ⊢
      rw [stripZeros, ih]

theorem zeros_or_append {value : Bytes} (h : value ≠ []) :
    (∃ count, value = List.replicate (count + 1) 0) ∨
      ∃ count first rest, first ≠ 0 ∧ value = List.replicate count 0 ++ first :: rest := by
  induction value with
  | nil => exact absurd rfl h
  | cons octet value ih =>
    by_cases hzero : octet = 0
    · subst hzero
      by_cases hnil : value = []
      · exact .inl ⟨0, by rw [hnil]; rfl⟩
      rcases ih hnil with ⟨count, rfl⟩ | ⟨count, first, rest, hfirst, rfl⟩
      · exact .inl ⟨count + 1, by rw [List.replicate_succ (n := count + 1)]⟩
      · refine .inr ⟨count + 1, first, rest, hfirst, ?_⟩
        rw [List.replicate_succ, List.cons_append]
    · exact .inr ⟨0, octet, value, hzero, rfl⟩

theorem integerContent_zeros (count : Nat) :
    integerContent (List.replicate (count + 1) 0) = some [0] := by
  rw [integerContent, stripZeros_zeros]
  rfl

theorem integerContent_append (count : Nat) {first : UInt8} (rest : Bytes)
    (h : first ≠ 0) :
    integerContent (List.replicate count 0 ++ first :: rest) =
      some (if first < 0x80 then first :: rest else 0 :: first :: rest) := by
  rw [integerContent, stripZeros_append count rest h]
  by_cases hsign : first < 0x80
  · simp [hsign, (sign_clear_iff first).mpr hsign]
  · simp [hsign, mt (sign_clear_iff first).mp hsign]

theorem integerContent_eq_none {value : Bytes} :
    integerContent value = none ↔ value = [] := by
  constructor
  · intro h
    by_contra hne
    rcases zeros_or_append hne with ⟨count, rfl⟩ | ⟨count, first, rest, hfirst, rfl⟩
    · rw [integerContent_zeros] at h
      cases h
    · rw [integerContent_append count rest hfirst] at h
      cases h
  · rintro rfl
    rfl

theorem integerContent_some {value content : Bytes} (h : integerContent value = some content) :
    Unsigned content ∧
      writeFixed content (List.replicate value.length 0) = .ok value := by
  have hne : value ≠ [] := by
    rintro rfl
    cases h
  rcases zeros_or_append hne with ⟨count, rfl⟩ | ⟨count, first, rest, hfirst, rfl⟩
  · rw [integerContent_zeros] at h
    obtain rfl := Option.some.inj h
    refine ⟨⟨0, [], rfl, by decide, by simp⟩, ?_⟩
    simp [writeFixed]
  · rw [integerContent_append count rest hfirst] at h
    obtain rfl := Option.some.inj h
    by_cases hsign : first < 0x80
    · rw [if_pos hsign]
      refine ⟨⟨first, rest, rfl, hsign, fun _ _ _ hzero => absurd hzero hfirst⟩, ?_⟩
      simp [writeFixed, hfirst, (sign_clear_iff first).mpr hsign]
      omega
    · rw [if_neg hsign]
      refine ⟨⟨0, first :: rest, rfl, by decide, ?_⟩, ?_⟩
      · rintro second tail htail -
        obtain ⟨rfl, rfl⟩ := List.cons.inj htail
        exact UInt8.not_lt.mp hsign
      · simp [writeFixed]
        omega

theorem integerContent_writeFixed {content out : Bytes} {width : Nat} (hwidth : 0 < width)
    (hcontent : ∃ first rest, content = first :: rest ∧
      ∀ second tail, rest = second :: tail → first = 0 → 0x80 ≤ second)
    (h : writeFixed content (List.replicate width 0) = .ok out) :
    integerContent out = some content ∧ out.length = width := by
  obtain ⟨first, rest, rfl, hsecond⟩ := hcontent
  by_cases hzero : first = 0
  · subst hzero
    cases rest with
    | nil =>
      obtain ⟨count, rfl⟩ := Nat.exists_eq_succ_of_ne_zero hwidth.ne'
      simp only [writeFixed, if_true, Bool.false_eq_true, if_false,
        Except.ok.injEq] at h
      rw [← h]
      exact ⟨integerContent_zeros count, by simp⟩
    | cons second tail =>
      have hsign := hsecond second tail rfl rfl
      have hne : second ≠ 0 := by
        rintro rfl
        exact absurd hsign (by decide)
      simp only [writeFixed, if_true, Bool.false_eq_true, if_false, reduceCtorEq,
        List.length_replicate] at h
      split at h
      · cases h
      · next hfits =>
        simp only [Except.ok.injEq, List.take_replicate] at h
        rw [← h]
        refine ⟨?_, by simp at hfits ⊢; omega⟩
        rw [integerContent_append _ tail hne, if_neg (UInt8.not_lt.mpr hsign)]
  · simp only [writeFixed, hzero, if_false, reduceCtorEq, List.length_replicate] at h
    split at h
    · cases h
    · next hclear =>
      split at h
      · cases h
      · next hfits =>
        simp only [Except.ok.injEq, List.take_replicate] at h
        rw [← h]
        have hsign : first < 0x80 := by
          rw [← sign_clear_iff]
          simpa using hclear
        refine ⟨?_, by simp at hfits ⊢; omega⟩
        rw [integerContent_append _ rest hzero, if_pos hsign]

/-! ## Reading what is there -/

section Runs

variable (T : Target)

theorem reads_readInteger {content p : Bytes} (hcontent : Unsigned content)
    (h : Tlv tagInteger content p) : Reads T (readInteger T) p content := by
  obtain ⟨first, tail, rfl, -, hsecond⟩ := hcontent
  apply (reads_readExpected (by decide) h).bind_last
  cases tail with
  | nil => exact Reads.pure [first]
  | cons second tail =>
    have hclear : ¬ (first = 0 ∧ second &&& 0x80 = 0) := by
      rintro ⟨hzero, hclear⟩
      exact absurd ((sign_clear_iff second).mp hclear)
        (UInt8.not_lt.mpr (hsecond second tail rfl hzero))
    simp only [hclear, if_false]
    exact Reads.pure _

theorem finish_eq_ok {r : Reader} (hr : r.WellFormed T) :
    finish r = .ok () ↔ r.unread = [] := by
  have := hr.pos_le
  rw [finish, Reader.unread, List.drop_eq_nil_iff]
  constructor
  · intro h
    split at h
    · omega
    · cases h
  · intro h
    rw [if_pos (by omega)]

end Runs

/-! ## Round trips -/

section RoundTrip

variable (T : Target)

theorem derLength_accepted {n : Nat} {length : Bytes} (h : DerLength n length)
    (hn : n < 2 ^ 32) : AcceptedLength n length := by
  cases h with
  | short n hshort => exact .short n hshort
  | long octets hbig hcount hhead =>
    refine .long octets hbig ?_
    rw [← beOctets_beValue octets hhead]
    exact beOctets_length_le (by omega)

theorem acceptedLength_lt {n : Nat} {length : Bytes} (h : AcceptedLength n length) :
    n < 2 ^ 32 := by
  cases h with
  | short n hn => omega
  | long octets hbig hcount =>
    calc beValue octets < 256 ^ octets.length := beValue_lt octets
      _ ≤ 256 ^ 4 := Nat.pow_le_pow_right (by decide) hcount

theorem acceptedLength_length {n : Nat} {length : Bytes} (h : AcceptedLength n length) :
    length.length ≤ 5 := by
  cases h with
  | short n hn => simp
  | long octets hbig hcount => simpa using Nat.lt_succ_of_le hcount

/-- What a successful `readSignature` has seen: three values with accepted lengths, and
nothing after them. -/
structure Layout (der r s : Bytes) : Prop where
  split : ∃ outer rLength sLength body,
    AcceptedLength body.length outer ∧ AcceptedLength r.length rLength ∧
      AcceptedLength s.length sLength ∧ der = tagSequence :: (outer ++ body) ∧
      body = tagInteger :: (rLength ++ (r ++ tagInteger :: (sLength ++ s)))
  r_minimal : ∃ first rest, r = first :: rest ∧
    ∀ second tail, rest = second :: tail → first = 0 → 0x80 ≤ second
  s_minimal : ∃ first rest, s = first :: rest ∧
    ∀ second tail, rest = second :: tail → first = 0 → 0x80 ≤ second

theorem readSequence_whole {der : Bytes} {seq outer : Reader}
    (hder : (Reader.new der).WellFormed T)
    (h : readSequence T (Reader.new der) = (.ok seq, outer))
    (hfinish : finish outer = .ok ()) :
    ∃ length body, AcceptedLength body.length length ∧
      der = tagSequence :: (length ++ body) ∧ seq = Reader.new body ∧ seq.WellFormed T := by
  obtain ⟨body, p, rfl, ⟨length, haccepted, rfl⟩, hconsumes, hwell⟩ := readSequence_ok hder h
  have hunread := hconsumes.unread_eq
  rw [(finish_eq_ok T hwell).mp hfinish, List.append_nil] at hunread
  have hsplit : der = tagSequence :: (length ++ body) := by
    simpa [Reader.unread, Reader.new] using hunread
  refine ⟨length, body, haccepted, hsplit, rfl, Reader.new_wellFormed T body ?_⟩
  have hfits : der.length < 2 ^ (T.usizeBits - 1) := hder.data_fits
  rw [hsplit] at hfits
  simp only [List.length_cons, List.length_append] at hfits
  omega

theorem readSignature_ok {der r s : Bytes} (hder : (Reader.new der).WellFormed T)
    (h : readSignature T der = .ok (r, s)) : Layout der r s := by
  unfold readSignature at h
  simp only at h
  split at h
  · cases h
  · cases h
  · next seq outer hseq =>
    split at h
    · cases h
    · next houter =>
      split at h
      · cases h
      · cases h
      · next values last hread =>
        split at h
        · cases h
        · next hlast =>
          obtain rfl := Outcome.ok.inj h
          obtain ⟨length, body, haccepted, hder', rfl, hwell⟩ :=
            readSequence_whole T hder hseq houter
          obtain ⟨r', mid, hr, hread⟩ := Checked.bind_eq_ok hread
          obtain ⟨s', mid', hs, hread⟩ := Checked.bind_eq_ok hread
          simp only [Checked.run_pure, Prod.mk.injEq, Outcome.ok.injEq] at hread
          obtain ⟨⟨rfl, rfl⟩, rfl⟩ := hread
          obtain ⟨hrtlv, hrmin⟩ := readInteger_ok T hr
          obtain ⟨hstlv, hsmin⟩ := readInteger_ok T hs
          obtain ⟨rLength, hrlen, hrc, hmid⟩ := readTlv_ok T hwell hrtlv
          obtain ⟨sLength, hslen, hsc, hmid'⟩ := readTlv_ok T hmid hstlv
          refine ⟨⟨length, rLength, sLength, body, haccepted, hrlen, hslen, hder',
            ?_⟩, hrmin, hsmin⟩
          have hunread := (hrc.trans hsc).unread_eq
          rw [(finish_eq_ok T hmid').mp hlast, List.append_nil] at hunread
          simpa [Reader.unread, Reader.new] using hunread

theorem readSignature_of_layout {der r s : Bytes} (hder : (Reader.new der).WellFormed T)
    (h : Layout der r s) (hr : Unsigned r) (hs : Unsigned s) :
    readSignature T der = .ok (r, s) := by
  obtain ⟨outer, rLength, sLength, body, houter, hrlen, hslen, hsplit, hbody⟩ := h.split
  have hunread : (Reader.new der).unread = der ++ [] := by simp [Reader.unread, Reader.new]
  have hseq := reads_readSequence ⟨outer, houter, hsplit⟩ (Reader.new der) hder [] hunread
  have hwell := Reader.skip_wellFormed hder hunread
  have hbodywell : (Reader.new body).WellFormed T := by
    refine Reader.new_wellFormed T body ?_
    have hfits : der.length < 2 ^ (T.usizeBits - 1) := hder.data_fits
    rw [hsplit] at hfits
    simp only [List.length_cons, List.length_append] at hfits
    omega
  have hbodyunread : (Reader.new body).unread =
      tagInteger :: (rLength ++ r) ++ (tagInteger :: (sLength ++ s) ++ []) := by
    simpa [Reader.unread, Reader.new] using hbody
  have hrrun := reads_readInteger T hr ⟨rLength, hrlen, rfl⟩ _ hbodywell _ hbodyunread
  have hmidwell := Reader.skip_wellFormed hbodywell hbodyunread
  have hmid := Reader.skip_unread hbodyunread
  have hsrun := reads_readInteger T hs ⟨sLength, hslen, rfl⟩ _ hmidwell _ hmid
  have hwell' := Reader.skip_wellFormed hmidwell hmid
  simp only [readSignature, hseq, (finish_eq_ok T hwell).mpr (Reader.skip_unread hunread),
    Checked.run_bind, hrrun, hsrun, Checked.run_pure,
    (finish_eq_ok T hwell').mpr (Reader.skip_unread hmid)]

end RoundTrip

/-! ## Canonicity -/

def afterValue : Bytes → Bytes
  | _ :: first :: rest =>
    if first ≤ 0x7f then rest.drop first.toNat
    else
      let count := first.toNat % 128
      (rest.drop count).drop (beValue (rest.take count))
  | _ => []

theorem afterValue_eq {length content : Bytes} (tag : UInt8)
    (rest : Bytes) (h : AcceptedLength content.length length) :
    afterValue (tag :: (length ++ (content ++ rest))) = rest := by
  generalize hn : content.length = n at h
  cases h with
  | short n hn' =>
    have hfirst : UInt8.ofNat n ≤ 0x7f := by
      rw [UInt8.le_iff_toNat_le]
      simp
      omega
    have hvalue : (UInt8.ofNat n).toNat = content.length := by
      simp
      omega
    simp [afterValue, hfirst, hvalue]
  | long octets hbig hcount =>
    have hlong : ¬ UInt8.ofNat (128 + octets.length) ≤ 0x7f := by
      rw [UInt8.le_iff_toNat_le]
      simp
      omega
    have hvalue : (UInt8.ofNat (128 + octets.length)).toNat % 128 =
        octets.length := by
      simp
      omega
    simp only [afterValue, List.cons_append, hlong, if_false, hvalue]
    rw [List.take_left, List.drop_left, ← hn, List.drop_left]

def MinimalLengths (der : Bytes) : Prop :=
  ¬ LeadingZeroLength der ∧ ¬ LeadingZeroLength (declaredContent der) ∧
    ¬ LeadingZeroLength (afterValue (declaredContent der))

instance (der : Bytes) : Decidable (MinimalLengths der) :=
  inferInstanceAs (Decidable (_ ∧ _ ∧ _))

section Canonical

variable (T : Target)

def signatureTlv (r s : Bytes) : Bytes :=
  tlv T tagSequence (tlv T tagInteger r ++ tlv T tagInteger s)

theorem encodeSignatureDer_eq {r s rContent sContent : Bytes}
    (hr : integerContent r = some rContent) (hs : integerContent s = some sContent) :
    encodeSignatureDer T r s = some (signatureTlv T rContent sContent) := by
  simp [encodeSignatureDer, encodeBody, encodeInteger, hr, hs, signatureTlv]

theorem pushLength_accepted {n : Nat} {length : Bytes} (h : AcceptedLength n length) :
    DerLength n (pushLength T n) := by
  have hlt := acceptedLength_lt h
  have hwide := le_two_pow_usizeBits T
  have hcount := beOctets_length_le (k := 4) (by omega : n < 256 ^ 4)
  exact pushLength_der (by omega) (by omega)

theorem signatureTlv_eq_iff {der r s : Bytes} (h : Layout der r s)
    (hfits : der.length < 2 ^ T.usizeBits) :
    signatureTlv T r s = der ↔ MinimalLengths der := by
  obtain ⟨outer, rLength, sLength, body, houter, hrlen, hslen, rfl, rfl⟩ := h.split
  have hcontent := houter.declaredContent_eq tagSequence []
  rw [List.append_nil] at hcontent
  have hafter := afterValue_eq tagInteger (tagInteger :: (sLength ++ s)) hrlen
  have hrder := hrlen.der_iff tagInteger (r ++ tagInteger :: (sLength ++ s))
  have hsder := hslen.der_iff tagInteger s
  have houterder := houter.der_iff tagSequence
    (tagInteger :: (rLength ++ (r ++ tagInteger :: (sLength ++ s))))
  rw [MinimalLengths, hcontent, hafter, ← houterder, ← hrder, ← hsder]
  have hrpush := pushLength_accepted T hrlen
  have hspush := pushLength_accepted T hslen
  constructor
  · intro heq
    simp only [signatureTlv] at heq
    generalize hbody : tlv T tagInteger r ++ tlv T tagInteger s = body at heq
    have hlength := congrArg List.length heq
    have houterlength : outer.length ≤ 5 := acceptedLength_length houter
    have hlt := acceptedLength_lt houter
    simp only [tlv, List.length_cons, List.length_append] at hlength hlt hfits
    have hpush : DerLength body.length (pushLength T body.length) := by
      have hcount := beOctets_length_le (k := 5) (by omega : body.length < 256 ^ 5)
      exact pushLength_der (by omega) (by omega)
    obtain ⟨hout, hsame⟩ := BerLength.prefix_free hpush.toBer houter.toBer
      (List.cons.inj heq).2
    have hparts := hsame
    rw [← hbody, tlv, List.cons_append, List.append_assoc] at hparts
    obtain ⟨hr, htail⟩ := BerLength.prefix_free hrpush.toBer hrlen.toBer
      (List.cons.inj hparts).2
    obtain ⟨hs, -⟩ := BerLength.prefix_free hspush.toBer hslen.toBer
      (List.cons.inj (List.append_cancel_left htail)).2
    rw [hout, hsame] at hpush
    exact ⟨hpush, hr ▸ hrpush, hs ▸ hspush⟩
  · rintro ⟨houterder, hrder, hsder⟩
    have hr := hrpush.unique hrder
    have hs := hspush.unique hsder
    have hbody : tlv T tagInteger r ++ tlv T tagInteger s =
        tagInteger :: (rLength ++ (r ++ tagInteger :: (sLength ++ s))) := by
      simp [tlv, hr, hs]
    rw [signatureTlv, tlv, hbody, (pushLength_accepted T houter).unique houterder]

theorem decodeSignatureDer_ok {der rawOut raw : Bytes}
    (hder : (Reader.new der).WellFormed T)
    (h : decodeSignatureDer T der rawOut = (.ok (), raw)) :
    ∃ r s, Layout der r s ∧ integerContent (raw.take (raw.length / 2)) = some r ∧
      integerContent (raw.drop (raw.length / 2)) = some s := by
  unfold decodeSignatureDer at h
  split at h
  · simp at h
  · next hwidth =>
    rw [not_or, not_not] at hwidth
    have hhalf : 0 < rawOut.length / 2 := by
      have := List.length_pos_iff.mpr hwidth.1
      omega
    split at h
    · simp at h
    · simp at h
    · next r s hread =>
      have hlayout := readSignature_ok T hder hread
      simp only at h
      split at h
      · simp at h
      · next rOut hr =>
        split at h
        · simp at h
        · next sOut hs =>
          obtain ⟨hrc, hrlen⟩ := integerContent_writeFixed hhalf hlayout.r_minimal hr
          obtain ⟨hsc, hslen⟩ := integerContent_writeFixed hhalf hlayout.s_minimal hs
          obtain rfl := (Prod.mk.inj h).2
          have hmid : (rOut ++ sOut).length / 2 = rOut.length := by
            rw [List.length_append]
            omega
          refine ⟨r, s, hlayout, ?_, ?_⟩
          · rw [hmid, List.take_left, hrc]
          · rw [hmid, List.drop_left, hsc]

theorem decodeSignatureDer_layout {der r s rContent sContent rawOut : Bytes}
    (hder : (Reader.new der).WellFormed T) (hlayout : Layout der rContent sContent)
    (hr : integerContent r = some rContent) (hs : integerContent s = some sContent)
    (hwidth : r.length = s.length) (hraw : rawOut.length = r.length + s.length) :
    decodeSignatureDer T der rawOut = (.ok (), r ++ s) := by
  have hne : r ≠ [] := fun h => by
    rw [integerContent_eq_none.mpr h] at hr
    cases hr
  have hpos := List.length_pos_iff.mpr hne
  obtain ⟨hrunsigned, hrwrite⟩ := integerContent_some hr
  obtain ⟨hsunsigned, hswrite⟩ := integerContent_some hs
  have hread := readSignature_of_layout T hder hlayout hrunsigned hsunsigned
  have hempty : ¬ (rawOut = [] ∨ rawOut.length % 2 ≠ 0) := by
    rw [not_or, ← List.length_eq_zero_iff]
    omega
  have hhalf : rawOut.length / 2 = r.length := by omega
  rw [hwidth] at hhalf
  simp only [decodeSignatureDer, if_neg hempty, hread, hhalf, hswrite]
  rw [hwidth] at hrwrite
  simp only [hrwrite]

theorem layout_signatureTlv {r s : Bytes} (hr : Unsigned r) (hs : Unsigned s)
    (hsize : (tlv T tagInteger r ++ tlv T tagInteger s).length < 2 ^ 32) :
    Layout (signatureTlv T r s) r s := by
  have hwide := le_two_pow_usizeBits T
  have haccepted : ∀ n, n < 2 ^ 32 → AcceptedLength n (pushLength T n) := fun n hn => by
    have hcount := beOctets_length_le (k := 4) (by omega : n < 256 ^ 4)
    exact derLength_accepted (pushLength_der (by omega) (by omega)) hn
  have hminimal : ∀ {content}, Unsigned content → ∃ first rest, content = first :: rest ∧
      ∀ second tail, rest = second :: tail → first = 0 → 0x80 ≤ second :=
    fun ⟨first, rest, hcontent, _, hsecond⟩ => ⟨first, rest, hcontent, hsecond⟩
  have hlengths := hsize
  simp only [tlv, List.length_append, List.length_cons] at hlengths
  exact ⟨⟨_, _, _, _, haccepted _ hsize, haccepted _ (by omega), haccepted _ (by omega),
    rfl, by simp [tlv]⟩, hminimal hr, hminimal hs⟩

/--
Decoding undoes encoding exactly on nonempty coordinates whose encoding has a body
below `2 ^ 32` octets, encoding undoes decoding exactly on the strings with minimal
lengths, and no two of those decode to one signature.
-/
theorem signature_codec_iff (hT : T.usizeBits ≤ 64) :
    (∀ r s : Bytes, r.length = s.length →
      (∀ der, encodeSignatureDer T r s = some der → der.length < 2 ^ (T.usizeBits - 1)) →
      ((∃ der, encodeSignatureDer T r s = some der ∧ ∀ rawOut : Bytes,
          rawOut.length = r.length + s.length →
            decodeSignatureDer T der rawOut = (.ok (), r ++ s)) ↔
        r ≠ [] ∧ ∀ body, encodeBody T r s = some body → body.length < 2 ^ 32)) ∧
    (∀ der rawOut raw : Bytes, der.length < 2 ^ (T.usizeBits - 1) →
      decodeSignatureDer T der rawOut = (.ok (), raw) →
      (encodeSignatureDer T (raw.take (raw.length / 2)) (raw.drop (raw.length / 2)) =
          some der ↔ MinimalLengths der)) ∧
    (∀ der der' rawOut rawOut' raw : Bytes, der.length < 2 ^ (T.usizeBits - 1) →
      der'.length < 2 ^ (T.usizeBits - 1) → MinimalLengths der → MinimalLengths der' →
      decodeSignatureDer T der rawOut = (.ok (), raw) →
      decodeSignatureDer T der' rawOut' = (.ok (), raw) → der = der') := by
  have hpow := two_pow_usizeBits T
  have hcanonical : ∀ der rawOut raw : Bytes, der.length < 2 ^ (T.usizeBits - 1) →
      decodeSignatureDer T der rawOut = (.ok (), raw) →
      (encodeSignatureDer T (raw.take (raw.length / 2)) (raw.drop (raw.length / 2)) =
          some der ↔ MinimalLengths der) := by
    intro der rawOut raw hfits h
    obtain ⟨r, s, hlayout, hr, hs⟩ :=
      decodeSignatureDer_ok T (Reader.new_wellFormed T der hfits) h
    rw [encodeSignatureDer_eq T hr hs, Option.some.injEq]
    exact signatureTlv_eq_iff T hlayout (by omega)
  refine ⟨?_, hcanonical, ?_⟩
  · intro r s hwidth hfits
    by_cases hne : r = []
    · subst hne
      refine ⟨?_, fun h => absurd rfl h.1⟩
      rintro ⟨der, hencode, -⟩
      cases hencode
    have hsne : s ≠ [] := fun h => hne (List.length_eq_zero_iff.mp (by rw [hwidth, h]; rfl))
    obtain ⟨rContent, hr⟩ := Option.ne_none_iff_exists'.mp
      (mt integerContent_eq_none.mp hne)
    obtain ⟨sContent, hs⟩ := Option.ne_none_iff_exists'.mp
      (mt integerContent_eq_none.mp hsne)
    have hencode := encodeSignatureDer_eq T hr hs
    have hbody : encodeBody T r s =
        some (tlv T tagInteger rContent ++ tlv T tagInteger sContent) := by
      simp [encodeBody, encodeInteger, hr, hs]
    have hwell := Reader.new_wellFormed T _ (hfits _ hencode)
    constructor
    · rintro ⟨der, hder, hdecode⟩
      obtain rfl := Option.some.inj (hencode.symm.trans hder)
      refine ⟨hne, fun body hbody' => ?_⟩
      obtain rfl := Option.some.inj (hbody.symm.trans hbody')
      obtain ⟨r', s', hlayout, -, -⟩ := decodeSignatureDer_ok T hwell
        (hdecode (r ++ s) (List.length_append))
      obtain ⟨outer, -, -, body', houter, -, -, hsplit, -⟩ := hlayout.split
      have hlen := hfits _ hencode
      rw [signatureTlv] at hsplit hlen
      generalize tlv T tagInteger rContent ++ tlv T tagInteger sContent = body at *
      simp only [tlv, List.length_cons, List.length_append] at hlen
      have hmax : 2 ^ T.usizeBits ≤ 2 ^ 64 := Nat.pow_le_pow_right (by decide) hT
      have hcount := beOctets_length_le (k := 8) (by omega : body.length < 256 ^ 8)
      have hpush : DerLength body.length (pushLength T body.length) :=
        pushLength_der (by omega) (by omega)
      obtain ⟨-, rfl⟩ := BerLength.prefix_free hpush.toBer houter.toBer
        (List.cons.inj hsplit).2
      exact acceptedLength_lt houter
    · rintro ⟨-, hsize⟩
      refine ⟨_, hencode, fun rawOut hraw => ?_⟩
      have hlayout := layout_signatureTlv T (integerContent_some hr).1
        (integerContent_some hs).1 (hsize _ hbody)
      exact decodeSignatureDer_layout T hwell hlayout hr hs hwidth hraw
  · intro der der' rawOut rawOut' raw hfits hfits' hmin hmin' h h'
    have hencode := (hcanonical der rawOut raw hfits h).mpr hmin
    have hencode' := (hcanonical der' rawOut' raw hfits' h').mpr hmin'
    exact Option.some.inj (hencode.symm.trans hencode')

end Canonical

/-- `r = 1` and `s = 128` in fields of two octets, on a 64-bit target. -/
theorem signature_codec_iff_two_octets :
    decodeSignatureDer ⟨64, by decide⟩ [0x30, 0x07, 0x02, 0x01, 0x01, 0x02, 0x02, 0x00, 0x80]
        [0, 0, 0, 0] = (.ok (), [0x00, 0x01, 0x00, 0x80]) ∧
      encodeSignatureDer ⟨64, by decide⟩ [0x00, 0x01] [0x00, 0x80] =
        some [0x30, 0x07, 0x02, 0x01, 0x01, 0x02, 0x02, 0x00, 0x80] := by
  have hdecode : decodeSignatureDer ⟨64, by decide⟩
      [0x30, 0x07, 0x02, 0x01, 0x01, 0x02, 0x02, 0x00, 0x80] [0, 0, 0, 0] =
        (.ok (), [0x00, 0x01, 0x00, 0x80]) := by decide
  exact ⟨hdecode, ((signature_codec_iff ⟨64, by decide⟩ (by decide)).2.1
    [0x30, 0x07, 0x02, 0x01, 0x01, 0x02, 0x02, 0x00, 0x80] [0, 0, 0, 0]
    [0x00, 0x01, 0x00, 0x80] (by decide) hdecode).mpr (by decide)⟩

def wideBody : Bytes :=
  [0x02, 0x42] ++ List.replicate 66 0x01 ++ ([0x02, 0x42] ++ List.replicate 66 0x01)

/--
With coordinates of 66 octets the length of the SEQUENCE takes the long form, and a
zero octet in front of it is accepted: `30 82 00 88` and `30 81 88` decode to the same
signature.
-/
theorem signature_decodes_nonminimal :
    ¬ ∀ (T : Target) (der rawOut raw : Bytes), der.length < 2 ^ (T.usizeBits - 1) →
      decodeSignatureDer T der rawOut = (.ok (), raw) →
        encodeSignatureDer T (raw.take (raw.length / 2)) (raw.drop (raw.length / 2)) =
          some der := by
  intro hall
  have hdecode : decodeSignatureDer ⟨64, by decide⟩ ([0x30, 0x82, 0x00, 0x88] ++ wideBody)
      (List.replicate 132 0) = (.ok (), List.replicate 132 0x01) := by decide +kernel
  have hencode := hall ⟨64, by decide⟩ _ _ _ (by decide +kernel) hdecode
  exact absurd hencode (by decide +kernel)

end Stdx.Encoding.Ecdsa
