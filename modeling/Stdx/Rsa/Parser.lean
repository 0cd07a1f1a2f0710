import Stdx.Rsa.Key
import Stdx.Encoding.DerCanonical

/-!
# The public-key parser

`from_pkcs1_der` accepts strict DER only, and it panics exactly when a length of
four octets that it reads is so close to `usize::MAX` that adding the header to it
overflows.  On 64 bits no length is.
-/

namespace Stdx.Rsa

open Stdx.Foundation Stdx.BigNumber
open Stdx.Encoding.Der (DerLength DerEncodes encodeUnsigned encodeUnsigned_beValue
  encodeUnsigned_head tagInteger tagSequence shift_or)

/-! ## Lengths -/

variable (T : Target)

theorem foldl_lengthOctets {bits : Nat} (octets : Bytes) (len : Nat)
    (hroom : (len + 1) * 256 ^ octets.length ≤ 2 ^ bits) :
    octets.foldl (fun len octet => ((len <<< 8) % 2 ^ bits) ||| octet.toNat) len =
      len * 256 ^ octets.length + beValue octets := by
  induction octets generalizing len with
  | nil => simp
  | cons octet octets ih =>
    have hoctet := octet.toNat_lt
    have hpow : 1 ≤ 256 ^ octets.length := Nat.one_le_pow _ _ (by omega)
    rw [List.length_cons, pow_succ] at hroom
    have hstep : (len * 256 + octet.toNat + 1) * 256 ^ octets.length ≤ 2 ^ bits :=
      calc (len * 256 + octet.toNat + 1) * 256 ^ octets.length
          ≤ ((len + 1) * 256) * 256 ^ octets.length :=
            Nat.mul_le_mul_right _ (by omega)
        _ = (len + 1) * (256 ^ octets.length * 256) := by ring
        _ ≤ 2 ^ bits := hroom
    rw [List.foldl_cons, shift_or len octet (by nlinarith), ih _ hstep, beValue_cons,
      List.length_cons, pow_succ]
    ring

/-- At most four octets of a long form, as `read_length` takes them. -/
def ShortLength (len : Nat) (p : Bytes) : Prop := DerLength len p ∧ p.length ≤ 5

theorem first_octet (first : UInt8) :
    (first &&& 0x80 = 0 ↔ first.toNat < 128) ∧
      (first &&& 0x7f).toNat = first.toNat % 128 := by
  have hmask : (first &&& 0x7f).toNat = first.toNat % 128 := by
    rw [UInt8.toNat_and]
    exact Nat.and_two_pow_sub_one_eq_mod _ 7
  refine ⟨?_, hmask⟩
  revert first
  exact forall_octet (by decide +kernel)

theorem readLength_ok_of {len : Nat} {p : Bytes} (h : ShortLength len p)
    (rest : Bytes) : readLength T (p ++ rest) = .ok (len, p.length) := by
  obtain ⟨hder, hshort⟩ := h
  cases hder with
  | short len hlt =>
    have hfirst : (UInt8.ofNat len).toNat = len := by
      rw [UInt8.toNat_ofNat']
      omega
    have hbit := (first_octet (UInt8.ofNat len)).1.mpr (by rw [hfirst]; exact hlt)
    simp [readLength, hbit, hfirst]
  | long octets hbig hcount hhead =>
    have hlength : octets.length ≤ 4 := by
      rw [List.length_cons] at hshort
      omega
    have hpos : octets ≠ [] := by
      rintro rfl
      simp at hbig
    have hposlen := List.length_pos_of_ne_nil hpos
    have hfirst : (UInt8.ofNat (128 + octets.length)).toNat = 128 + octets.length := by
      rw [UInt8.toNat_ofNat']
      omega
    obtain ⟨hbit, hmask⟩ := first_octet (UInt8.ofNat (128 + octets.length))
    rw [hfirst] at hbit hmask
    have hnum : (UInt8.ofNat (128 + octets.length) &&& 0x7f).toNat = octets.length := by
      rw [hmask]
      omega
    have hroom : (0 + 1) * 256 ^ octets.length ≤ 2 ^ T.usizeBits :=
      calc (0 + 1) * 256 ^ octets.length ≤ (0 + 1) * 256 ^ 4 :=
            Nat.mul_le_mul_left _ (Nat.pow_le_pow_right (by omega) hlength)
        _ = 2 ^ 32 := by norm_num
        _ ≤ 2 ^ T.usizeBits := Nat.pow_le_pow_right (by omega) T.wide
    have hvalue := foldl_lengthOctets octets 0 hroom
    have hslice : getSlice (UInt8.ofNat (128 + octets.length) :: (octets ++ rest)) 1
        (1 + octets.length) = .ok octets := by
      rw [getSlice, if_pos ⟨by omega, by simp; omega⟩]
      simp [slice]
    rw [List.cons_append, readLength, if_neg (by rw [hbit]; omega)]
    simp only [hnum, List.length_cons, List.length_append]
    rw [if_neg (by omega), hslice, Outcome.ok_bind, if_neg hhead, hvalue,
      if_neg (by omega), Nat.zero_mul, Nat.zero_add, Nat.add_comm]

theorem readLength_cases (data : Bytes) :
    readLength T data = .err .Unspecified ∨
      ∃ len p rest, data = p ++ rest ∧ ShortLength len p := by
  cases data with
  | nil => exact .inl rfl
  | cons first data =>
    obtain ⟨hbit, hmask⟩ := first_octet first
    by_cases hsmall : first.toNat < 128
    · refine .inr ⟨first.toNat, [first], data, rfl, ?_, by simp⟩
      have hder := DerLength.short first.toNat hsmall
      rwa [UInt8.ofNat_toNat] at hder
    by_cases hcount : first.toNat % 128 = 0 ∨ first.toNat % 128 > 4 ∨
        (first :: data).length < 1 + first.toNat % 128
    · left
      rw [readLength, if_neg (by rw [hbit]; omega)]
      simp only [hmask]
      rw [if_pos hcount]
    have hlt := first.toNat_lt
    have hlength : (data.take (first.toNat % 128)).length = first.toNat % 128 := by
      rw [List.length_take]
      simp only [List.length_cons] at hcount
      omega
    have hfirst : first = UInt8.ofNat (128 + (data.take (first.toNat % 128)).length) := by
      rw [hlength, ← UInt8.toNat_inj, UInt8.toNat_ofNat']
      omega
    have hslice : getSlice (first :: data) 1 (1 + first.toNat % 128) =
        .ok (data.take (first.toNat % 128)) := by
      rw [getSlice, if_pos ⟨by omega, by omega⟩]
      simp [slice]
    have hroom : (0 + 1) * 256 ^ (data.take (first.toNat % 128)).length ≤
        2 ^ T.usizeBits :=
      calc (0 + 1) * 256 ^ (data.take (first.toNat % 128)).length
          ≤ (0 + 1) * 256 ^ 4 :=
            Nat.mul_le_mul_left _ (Nat.pow_le_pow_right (by omega) (by omega))
        _ = 2 ^ 32 := by norm_num
        _ ≤ 2 ^ T.usizeBits := Nat.pow_le_pow_right (by omega) T.wide
    have hvalue := foldl_lengthOctets (data.take (first.toNat % 128)) 0 hroom
    have hrun : readLength T (first :: data) =
        if (data.take (first.toNat % 128)).head? = some 0 then .err .Unspecified
        else if beValue (data.take (first.toNat % 128)) < 0x80 then .err .Unspecified
        else .ok (beValue (data.take (first.toNat % 128)), 1 + first.toNat % 128) := by
      rw [readLength, if_neg (by rw [hbit]; omega)]
      simp only [hmask]
      rw [if_neg hcount, hslice, Outcome.ok_bind, hvalue, Nat.zero_mul, Nat.zero_add]
    rw [hrun]
    by_cases hhead : (data.take (first.toNat % 128)).head? = some 0
    · exact .inl (if_pos hhead)
    by_cases hlow : beValue (data.take (first.toNat % 128)) < 0x80
    · exact .inl (by rw [if_neg hhead, if_pos hlow])
    · right
      refine ⟨beValue (data.take (first.toNat % 128)),
        first :: data.take (first.toNat % 128), data.drop (first.toNat % 128), ?_, ?_, ?_⟩
      · rw [List.cons_append, List.take_append_drop]
      · have hder := DerLength.long _ (Nat.le_of_not_lt hlow) (by omega) hhead
        rwa [← hfirst] at hder
      · rw [List.length_cons, hlength]
        omega

theorem ShortLength.lt {len : Nat} {p : Bytes} (h : ShortLength len p) :
    len < 2 ^ 32 := by
  obtain ⟨hder, hshort⟩ := h
  cases hder with
  | short len hlt => omega
  | long octets =>
    rw [List.length_cons] at hshort
    calc beValue octets < 256 ^ octets.length := beValue_lt octets
      _ ≤ 256 ^ 4 := Nat.pow_le_pow_right (by omega) (by omega)
      _ = 2 ^ 32 := by norm_num

theorem ShortLength.pos {len : Nat} {p : Bytes} (h : ShortLength len p) :
    0 < p.length := by
  obtain ⟨hder, -⟩ := h
  cases hder <;> simp

theorem shortLength_of_lt {len : Nat} {p : Bytes} (h : DerLength len p)
    (hlt : len < 2 ^ 32) : ShortLength len p := by
  refine ⟨h, ?_⟩
  cases h with
  | short len hsmall => simp
  | long octets hbig hcount hhead =>
    have hlength := beOctets_length_le (k := 4) (n := beValue octets) (by omega)
    rw [beOctets_beValue octets hhead] at hlength
    rw [List.length_cons]
    omega

/-! ## Overflowing lengths -/

/-- A four-octet length behind `tag` whose sum with the header's six octets is
no `usize`. -/
def OverflowingLength (tag : UInt8) (data : Bytes) : Prop :=
  ∃ octets rest, octets.length = 4 ∧ data = tag :: 0x84 :: (octets ++ rest) ∧
    2 ^ T.usizeBits ≤ 6 + beValue octets

theorem overflowingLength_iff (tag : UInt8) (data : Bytes) :
    OverflowingLength T tag data ↔
      ∃ len p rest, data = tag :: (p ++ rest) ∧ ShortLength len p ∧
        2 ^ T.usizeBits ≤ 1 + p.length + len := by
  have hwide := le_two_pow_usizeBits T
  constructor
  · rintro ⟨octets, rest, hlength, rfl, hbig⟩
    have hhead : octets.head? ≠ some 0 := by
      intro hzero
      obtain ⟨tail, rfl⟩ : ∃ tail, octets = 0 :: tail := by
        cases octets with
        | nil => simp at hzero
        | cons first tail => exact ⟨tail, by simpa using hzero⟩
      rw [List.length_cons] at hlength
      have htail := beValue_lt tail
      rw [(by omega : tail.length = 3)] at htail
      rw [beValue_cons, UInt8.toNat_zero, Nat.zero_mul, Nat.zero_add] at hbig
      omega
    have hder := DerLength.long octets (by omega) (by omega) hhead
    rw [hlength] at hder
    exact ⟨beValue octets, 0x84 :: octets, rest, rfl, ⟨hder, by simp [hlength]⟩, by
      rw [List.length_cons, hlength]
      omega⟩
  · rintro ⟨len, p, rest, rfl, ⟨hder, hshort⟩, hbig⟩
    cases hder with
    | short len hlt =>
      rw [List.length_singleton] at hbig
      omega
    | long octets =>
      rw [List.length_cons] at hshort hbig
      have hlength : octets.length = 4 := by
        by_contra hne
        have hlt : beValue octets < 256 ^ 3 :=
          (beValue_lt octets).trans_le (Nat.pow_le_pow_right (by omega) (by omega))
        omega
      refine ⟨octets, rest, hlength, ?_, by omega⟩
      rw [hlength]
      rfl

/-! ## Integers -/

theorem beValue_pos {first : UInt8} {rest : Bytes} (h : first ≠ 0) :
    0 < beValue (first :: rest) := by
  have hpos : 0 < first.toNat :=
    Nat.pos_of_ne_zero fun hzero => h (UInt8.toNat_inj.mp hzero)
  rw [beValue_cons]
  have := Nat.mul_pos hpos (pow_pos (by omega : 0 < 256) rest.length)
  omega

theorem sign_clear_iff (octet : UInt8) : octet &&& 0x80 = 0 ↔ octet < 0x80 := by
  rw [(first_octet octet).1, UInt8.lt_iff_toNat_lt]
  rfl

theorem magnitude_ok_of {n : Nat} (hn : 0 < n) :
    magnitude (encodeUnsigned n) = .ok (beOctets n) := by
  have hhead := beOctets_head?_ne_zero n
  have hvalue := beValue_beOctets n
  cases hoctets : beOctets n with
  | nil =>
    rw [hoctets, beValue_nil] at hvalue
    omega
  | cons first rest =>
    rw [hoctets] at hhead
    have hfirst : first ≠ 0 := by simpa using hhead
    simp only [encodeUnsigned, hoctets]
    by_cases hsign : first < 0x80
    · simp [hsign, magnitude, getByte, (sign_clear_iff first).mpr hsign, hfirst]
    · have hset : ¬ first &&& 0x80 = 0 := fun h => hsign ((sign_clear_iff first).mp h)
      simp [hsign, magnitude, getByte, hset]

theorem magnitude_cases {bytes : Bytes} (hne : bytes ≠ []) :
    magnitude bytes = .err .Unspecified ∨ ∃ n, 0 < n ∧ bytes = encodeUnsigned n := by
  cases bytes with
  | nil => exact absurd rfl hne
  | cons first rest =>
    by_cases hsign : first < 0x80
    · have hclear := (sign_clear_iff first).mpr hsign
      by_cases hzero : first = 0
      · subst hzero
        cases rest with
        | nil => exact .inl rfl
        | cons second tail =>
          by_cases hsecond : second &&& 0x80 = 0
          · left
            simp [magnitude, getByte, hsecond]
          · right
            have hbig : 0x80 ≤ second :=
              UInt8.not_lt.mp fun h => hsecond ((sign_clear_iff second).mpr h)
            have hpos : second ≠ 0 := by
              rintro rfl
              exact hsecond rfl
            refine ⟨beValue (0 :: second :: tail), ?_, ?_⟩
            · rw [beValue_cons]
              exact Nat.add_pos_right _ (beValue_pos hpos)
            · refine (encodeUnsigned_beValue (by decide) ?_).symm
              rintro _ _ ⟨rfl, rfl⟩ -
              exact hbig
      · right
        exact ⟨beValue (first :: rest), beValue_pos hzero,
          (encodeUnsigned_beValue hsign fun _ _ _ h => absurd h hzero).symm⟩
    · left
      have hset : ¬ first &&& 0x80 = 0 := fun h => hsign ((sign_clear_iff first).mp h)
      simp [magnitude, getByte, hset]

theorem encodeUnsigned_length (n : Nat) :
    0 < (encodeUnsigned n).length ∧
      (encodeUnsigned n).length ≤ (beOctets n).length + 1 := by
  unfold encodeUnsigned
  split
  · next h => simp
  · next first rest h =>
    rw [h]
    split <;> simp

theorem getSlice_middle (front middle back : Bytes) :
    getSlice (front ++ middle ++ back) front.length (front.length + middle.length) =
      .ok middle := by
  rw [getSlice, if_pos ⟨by omega, by simp⟩, slice, List.append_assoc,
    List.drop_left, Nat.add_sub_cancel_left, List.take_left]

/-- `n` written strictly, short enough for the buffer. -/
structure IntegerAt (n outLen : Nat) (nTlv data rest : Bytes) : Prop where
  pos : 0 < n
  fits : (beOctets n).length ≤ outLen
  encodes : DerEncodes tagInteger (encodeUnsigned n) nTlv
  split : data = nTlv ++ rest

theorem header_start {first tag : UInt8} (htag : first = tag) {p : Bytes} (hp : 0 < p.length)
    (rest : Bytes) :
    ¬ ((first :: (p ++ rest)).length < 2 ∨ (first :: (p ++ rest)).head? ≠ some tag) := by
  simp only [List.length_cons, List.length_append, List.head?_cons]
  exact not_or.mpr ⟨by omega, not_not.mpr (congrArg some htag)⟩

theorem readInteger_overflow {data : Bytes} (outLen : Nat)
    (h : OverflowingLength T tagInteger data) : readInteger T data outLen = .panic := by
  obtain ⟨len, p, rest, rfl, hp, hbig⟩ := (overflowingLength_iff T _ _).mp h
  have hstart := header_start (show tagInteger = 0x02 from rfl) hp.pos rest
  rw [readInteger, if_neg hstart, List.drop_succ_cons, List.drop_zero,
    readLength_ok_of T hp, Outcome.ok_bind]
  simp only [addUsize, if_neg (Nat.not_lt.mpr hbig)]
  rfl

theorem readInteger_ok_of {n outLen : Nat} {nTlv data rest : Bytes}
    (hout : outLen ≤ RSA_MAX_BYTES) (h : IntegerAt n outLen nTlv data rest) :
    readInteger T data outLen = .ok (beOctets n, nTlv.length) := by
  obtain ⟨hpos, hfits, ⟨p, hder, rfl⟩, rfl⟩ := h
  have hwide := le_two_pow_usizeBits T
  obtain ⟨hlow, hhigh⟩ := encodeUnsigned_length n
  have hp := shortLength_of_lt hder (by unfold RSA_MAX_BYTES at hout; omega)
  have hplen := hp.2
  have hppos := hp.pos
  have hstart : ¬ ((tagInteger :: (p ++ encodeUnsigned n) ++ rest).length < 2 ∨
      (tagInteger :: (p ++ encodeUnsigned n) ++ rest).head? ≠ some 0x02) := by
    simp only [List.cons_append, List.length_cons, List.length_append, List.head?_cons]
    exact not_or.mpr ⟨by omega, not_not.mpr rfl⟩
  have hlength := readLength_ok_of T hp (encodeUnsigned n ++ rest)
  have hslice := getSlice_middle (tagInteger :: p) (encodeUnsigned n) rest
  rw [List.length_cons, Nat.add_comm p.length 1] at hslice
  have hsum : 1 + p.length + (encodeUnsigned n).length < 2 ^ T.usizeBits := by
    unfold RSA_MAX_BYTES at hout
    omega
  have htotal : (tagInteger :: p ++ encodeUnsigned n).length =
      1 + p.length + (encodeUnsigned n).length := by
    rw [List.cons_append, List.length_cons, List.length_append]
    omega
  have hroom : ¬ ((encodeUnsigned n).length = 0 ∨
      (tagInteger :: (p ++ encodeUnsigned n) ++ rest).length <
        1 + p.length + (encodeUnsigned n).length) := by
    simp only [List.cons_append, List.length_cons, List.length_append]
    omega
  rw [readInteger, if_neg hstart, List.cons_append, List.drop_succ_cons, List.drop_zero,
    List.append_assoc, hlength, Outcome.ok_bind]
  simp only [addUsize, if_pos hsum, Outcome.ok_bind]
  rw [if_neg (by simpa using hroom), ← List.append_assoc, ← List.cons_append,
    ← List.cons_append, hslice, Outcome.ok_bind, magnitude_ok_of hpos, Outcome.ok_bind,
    if_neg (by omega), htotal]

theorem readInteger_cases (data : Bytes) (outLen : Nat) :
    readInteger T data outLen = .err .Unspecified ∨
      OverflowingLength T tagInteger data ∨
      ∃ n nTlv rest, IntegerAt n outLen nTlv data rest := by
  by_cases hstart : data.length < 2 ∨ data.head? ≠ some 0x02
  · exact .inl (by rw [readInteger, if_pos hstart])
  obtain ⟨tail, rfl⟩ : ∃ tail, data = tagInteger :: tail := by
    obtain ⟨-, hhead⟩ := not_or.mp hstart
    exact List.head?_eq_some_iff.mp (not_not.mp hhead)
  rcases readLength_cases T tail with herr | ⟨len, p, rest, rfl, hp⟩
  · left
    rw [readInteger, if_neg hstart, List.drop_succ_cons, List.drop_zero, herr]
    rfl
  by_cases hbig : 2 ^ T.usizeBits ≤ 1 + p.length + len
  · exact .inr (.inl ((overflowingLength_iff T _ _).mpr ⟨len, p, rest, rfl, hp, hbig⟩))
  have hsum : 1 + p.length + len < 2 ^ T.usizeBits := Nat.lt_of_not_le hbig
  by_cases hroom : len = 0 ∨ (tagInteger :: (p ++ rest)).length < 1 + p.length + len
  · left
    rw [readInteger, if_neg hstart, List.drop_succ_cons, List.drop_zero,
      readLength_ok_of T hp, Outcome.ok_bind]
    simp only [addUsize, if_pos hsum, Outcome.ok_bind]
    rw [if_pos hroom]
  -- The content is the `len` octets behind the header.
  obtain ⟨content, back, rfl, hcontent⟩ : ∃ content back, rest = content ++ back ∧
      content.length = len := by
    refine ⟨rest.take len, rest.drop len, (List.take_append_drop _ _).symm, ?_⟩
    simp only [List.length_cons, List.length_append] at hroom
    rw [List.length_take]
    omega
  have hne : content ≠ [] := by
    rintro rfl
    exact hroom (.inl hcontent.symm)
  have hslice := getSlice_middle (tagInteger :: p) content back
  rw [List.length_cons, Nat.add_comm p.length 1, hcontent, List.cons_append,
    List.cons_append, List.append_assoc] at hslice
  have hrun : readInteger T (tagInteger :: (p ++ (content ++ back))) outLen =
      (magnitude content >>= fun value =>
        if outLen < value.length then .err .Unspecified
        else .ok (value, 1 + p.length + len)) := by
    rw [readInteger, if_neg hstart, List.drop_succ_cons, List.drop_zero,
      readLength_ok_of T hp, Outcome.ok_bind]
    simp only [addUsize, if_pos hsum, Outcome.ok_bind]
    rw [if_neg hroom, hslice, Outcome.ok_bind]
  rcases magnitude_cases hne with herr | ⟨n, hpos, rfl⟩
  · left
    rw [hrun, herr]
    rfl
  by_cases hfits : outLen < (beOctets n).length
  · left
    rw [hrun, magnitude_ok_of hpos, Outcome.ok_bind, if_pos hfits]
  · refine .inr (.inr ⟨n, tagInteger :: (p ++ encodeUnsigned n), back, hpos,
      Nat.le_of_not_lt hfits, ⟨p, ?_, rfl⟩, by simp⟩)
    rw [hcontent]
    exact hp.1

/-! ## Keys -/

/-- `SEQUENCE { INTEGER n, INTEGER e }` with both positive and nothing else. -/
def StrictKey (n e : Nat) (data : Bytes) : Prop :=
  0 < n ∧ 0 < e ∧ ∃ nTlv eTlv, DerEncodes tagInteger (encodeUnsigned n) nTlv ∧
    DerEncodes tagInteger (encodeUnsigned e) eTlv ∧
    DerEncodes tagSequence (nTlv ++ eTlv) data

/-- A length that overflows is read: that of the sequence, of its first integer,
or of its second one. -/
def AnnouncesOverflow (data : Bytes) : Prop :=
  OverflowingLength T tagSequence data ∨
    ∃ body, body.length < 2 ^ 32 ∧ DerEncodes tagSequence body data ∧
      (OverflowingLength T tagInteger body ∨
        ∃ n nTlv rest, IntegerAt n RSA_MAX_BYTES nTlv body rest ∧
          OverflowingLength T tagInteger rest)

theorem fromNE_ne_panic (nBytes eBytes : Bytes) : fromNE nBytes eBytes ≠ .panic := by
  intro h
  unfold fromNE uintFromVariableBe at h
  split at h
  · cases h
  · rw [Outcome.ok_bind] at h
    split at h
    · cases h
    · rw [Outcome.ok_bind] at h
      split at h
      · cases h
      · next hmodulus =>
        split at h
        · cases h
        · simp only [Bool.or_eq_true, Uint.isZero_eq, decide_eq_true_eq, not_or]
            at hmodulus
          obtain ⟨mu, hmu, -⟩ := Uint.computeMuForBarrett_value
            (Nat.pos_of_ne_zero hmodulus.1.1) (by decide)
          rw [hmu] at h
          cases h

/-- `from_pkcs1_der` behind the header of the sequence. -/
private def parseBody (body : Bytes) : Outcome RsaError PublicKey := do
  let (n, consumed) ← readInteger T body RSA_MAX_BYTES
  let body ← getSlice body consumed body.length
  let (e, consumed) ← readInteger T body RSA_MAX_BYTES
  let body ← getSlice body consumed body.length
  if !body.isEmpty then .err .Unspecified else fromNE n e

theorem getSlice_suffix (front back : Bytes) :
    getSlice (front ++ back) front.length (front ++ back).length = .ok back := by
  rw [getSlice, if_pos ⟨by simp, le_rfl⟩, slice_length, List.drop_left]

private theorem parseBody_overflow {body : Bytes}
    (h : OverflowingLength T tagInteger body ∨
      ∃ n nTlv rest, IntegerAt n RSA_MAX_BYTES nTlv body rest ∧
        OverflowingLength T tagInteger rest) : parseBody T body = .panic := by
  rcases h with h | ⟨n, nTlv, rest, hn, h⟩
  · rw [parseBody, readInteger_overflow T _ h]
    rfl
  · rw [parseBody, readInteger_ok_of T le_rfl hn, Outcome.ok_bind]
    simp only [hn.split, getSlice_suffix, Outcome.ok_bind,
      readInteger_overflow T _ h]
    rfl

private theorem parseBody_sound {body : Bytes}
    (h : ¬ (OverflowingLength T tagInteger body ∨
      ∃ n nTlv rest, IntegerAt n RSA_MAX_BYTES nTlv body rest ∧
        OverflowingLength T tagInteger rest)) :
    parseBody T body ≠ .panic ∧ ∀ key, parseBody T body = .ok key →
      0 < key.n.value ∧ 0 < key.e.value ∧ ∃ nTlv eTlv, body = nTlv ++ eTlv ∧
        DerEncodes tagInteger (encodeUnsigned key.n.value) nTlv ∧
        DerEncodes tagInteger (encodeUnsigned key.e.value) eTlv := by
  obtain ⟨hfirst, hsecond⟩ := not_or.mp h
  rcases readInteger_cases T body RSA_MAX_BYTES with
    herr | hover | ⟨n, nTlv, rest, hn⟩
  · rw [parseBody, herr]
    exact ⟨nofun, nofun⟩
  · exact absurd hover hfirst
  have hrun : parseBody T body = (do
      let (e, consumed) ← readInteger T rest RSA_MAX_BYTES
      let back ← getSlice rest consumed rest.length
      if !back.isEmpty then .err .Unspecified else fromNE (beOctets n) e) := by
    rw [parseBody, readInteger_ok_of T le_rfl hn, Outcome.ok_bind]
    simp only [hn.split, getSlice_suffix, Outcome.ok_bind]
  rcases readInteger_cases T rest RSA_MAX_BYTES with
    herr | hover | ⟨e, eTlv, back, he⟩
  · rw [hrun, herr]
    exact ⟨nofun, nofun⟩
  · exact absurd ⟨n, nTlv, rest, hn, hover⟩ hsecond
  rw [hrun, readInteger_ok_of T le_rfl he, Outcome.ok_bind]
  simp only [he.split, getSlice_suffix, Outcome.ok_bind]
  cases back with
  | cons octet back => exact ⟨nofun, nofun⟩
  | nil =>
    refine ⟨fromNE_ne_panic _ _, fun key hkey => ?_⟩
    have haccepted := fromNE_accepted hkey
    rw [haccepted.n_eq, haccepted.e_eq, beValue_beOctets, beValue_beOctets]
    have hrest := he.split
    rw [List.append_nil] at hrest
    exact ⟨hn.pos, he.pos, nTlv, eTlv, by rw [hn.split, hrest], hn.encodes, he.encodes⟩

private theorem fromPkcs1Der_body {len : Nat} {p body : Bytes} (hp : ShortLength len p)
    (hsum : 1 + p.length + len < 2 ^ T.usizeBits) :
    fromPkcs1Der T (tagSequence :: (p ++ body)) =
      if body.length ≠ len then .err .Unspecified else parseBody T body := by
  have hstart := header_start (show tagSequence = 0x30 from rfl) hp.pos body
  have hslice := getSlice_suffix (tagSequence :: p) body
  rw [List.length_cons, Nat.add_comm p.length 1] at hslice
  rw [fromPkcs1Der, if_neg hstart, List.drop_succ_cons, List.drop_zero,
    readLength_ok_of T hp, Outcome.ok_bind]
  simp only [addUsize, if_pos hsum, Outcome.ok_bind]
  have htotal : (tagSequence :: (p ++ body)).length ≠ 1 + p.length + len ↔
      body.length ≠ len := by
    rw [List.length_cons, List.length_append]
    omega
  by_cases hlen : body.length = len
  · rw [if_neg (by rw [htotal]; exact not_not.mpr hlen), if_neg (not_not.mpr hlen)]
    rw [List.cons_append] at hslice
    rw [hslice, Outcome.ok_bind]
    rfl
  · rw [if_pos (htotal.mpr hlen), if_pos hlen]

theorem fromPkcs1Der_overflow {data : Bytes} (h : AnnouncesOverflow T data) :
    fromPkcs1Der T data = .panic := by
  have hheader : ∀ {d}, OverflowingLength T tagSequence d → fromPkcs1Der T d = .panic := by
    intro d hd
    obtain ⟨len, p, rest, rfl, hp, hbig⟩ := (overflowingLength_iff T _ _).mp hd
    have hstart := header_start (show tagSequence = 0x30 from rfl) hp.pos rest
    rw [fromPkcs1Der, if_neg hstart, List.drop_succ_cons, List.drop_zero,
      readLength_ok_of T hp, Outcome.ok_bind]
    simp only [addUsize, if_neg (Nat.not_lt.mpr hbig)]
    rfl
  rcases h with h | ⟨body, hsize, ⟨p, hder, rfl⟩, h⟩
  · exact hheader h
  have hp := shortLength_of_lt hder hsize
  by_cases hbig : 2 ^ T.usizeBits ≤ 1 + p.length + body.length
  · exact hheader ((overflowingLength_iff T _ _).mpr ⟨_, p, body, rfl, hp, hbig⟩)
  · rw [fromPkcs1Der_body T hp (Nat.lt_of_not_le hbig), if_neg (not_not.mpr rfl)]
    exact parseBody_overflow T h

theorem fromPkcs1Der_sound {data : Bytes} (h : ¬ AnnouncesOverflow T data) :
    fromPkcs1Der T data ≠ .panic ∧ ∀ key, fromPkcs1Der T data = .ok key →
      StrictKey key.n.value key.e.value data := by
  obtain ⟨hheader, hbody⟩ := not_or.mp h
  by_cases hstart : data.length < 2 ∨ data.head? ≠ some 0x30
  · rw [fromPkcs1Der, if_pos hstart]
    exact ⟨nofun, nofun⟩
  obtain ⟨tail, rfl⟩ : ∃ tail, data = tagSequence :: tail :=
    List.head?_eq_some_iff.mp (not_not.mp (not_or.mp hstart).2)
  rcases readLength_cases T tail with herr | ⟨len, p, body, rfl, hp⟩
  · rw [fromPkcs1Der, if_neg hstart, List.drop_succ_cons, List.drop_zero, herr]
    exact ⟨nofun, nofun⟩
  by_cases hbig : 2 ^ T.usizeBits ≤ 1 + p.length + len
  · exact absurd ((overflowingLength_iff T _ _).mpr ⟨len, p, body, rfl, hp, hbig⟩) hheader
  rw [fromPkcs1Der_body T hp (Nat.lt_of_not_le hbig)]
  by_cases hlen : body.length = len
  · subst hlen
    have hencodes : DerEncodes tagSequence body (tagSequence :: (p ++ body)) :=
      ⟨p, hp.1, rfl⟩
    obtain ⟨hpanic, hsound⟩ := parseBody_sound T fun hover =>
      hbody ⟨body, hp.lt, hencodes, hover⟩
    rw [if_neg (not_not.mpr rfl)]
    refine ⟨hpanic, fun key hkey => ?_⟩
    obtain ⟨hn, he, nTlv, eTlv, rfl, hnTlv, heTlv⟩ := hsound key hkey
    exact ⟨hn, he, nTlv, eTlv, hnTlv, heTlv, hencodes⟩
  · rw [if_pos hlen]
    exact ⟨nofun, nofun⟩

/-- What the parser should do with an input. -/
def ParsesStrictly (data : Bytes) : Prop :=
  fromPkcs1Der T data ≠ .panic ∧ ∀ key, fromPkcs1Der T data = .ok key →
    StrictKey key.n.value key.e.value data

theorem parsesStrictly_iff (data : Bytes) :
    ParsesStrictly T data ↔ ¬ AnnouncesOverflow T data :=
  ⟨fun h hover => h.1 (fromPkcs1Der_overflow T hover), fromPkcs1Der_sound T⟩

/-- On 32 bits the length of `n` overflows once its header is added. -/
theorem parsesStrictly_fails :
    ¬ ∀ T : Target, T.usizeBits = 32 ∨ T.usizeBits = 64 → ∀ data, ParsesStrictly T data := by
  intro h
  have hrun : fromPkcs1Der ⟨32, by decide⟩
      [0x30, 0x06, 0x02, 0x84, 0xff, 0xff, 0xff, 0xff] = .panic := by decide
  exact (h ⟨32, by decide⟩ (.inl rfl)
    [0x30, 0x06, 0x02, 0x84, 0xff, 0xff, 0xff, 0xff]).1 hrun

end Stdx.Rsa
