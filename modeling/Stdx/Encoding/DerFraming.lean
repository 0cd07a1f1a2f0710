import Stdx.Encoding.DerCanonical

/-!
# What the reader accepts

`Tlv` is a value as `read_tlv` frames it, with any length octets the reader takes.  A
method reads such a value from whatever reader has it in front, and a value read was framed
that way.
-/

namespace Stdx.Encoding.Der

open Stdx.Foundation

def Tlv (tag : UInt8) (content p : Bytes) : Prop :=
  ∃ length, AcceptedLength content.length length ∧ p = tag :: (length ++ content)

theorem Tlv.short {tag : UInt8} {content : Bytes} (h : content.length < 128) :
    Tlv tag content (tag :: UInt8.ofNat content.length :: content) :=
  ⟨_, .short _ h, rfl⟩

theorem Tlv.length_pos {tag : UInt8} {content p : Bytes} (h : Tlv tag content p) :
    0 < p.length := by
  obtain ⟨length, -, rfl⟩ := h
  simp

theorem AcceptedLength.exists_cons {n : Nat} {length : Bytes} (h : AcceptedLength n length) :
    ∃ first octets, length = first :: octets := by
  cases h with
  | short n hn => exact ⟨_, [], rfl⟩
  | long octets hbig hcount => exact ⟨_, octets, rfl⟩

namespace Reader

def skip (r : Reader) (count : Nat) : Reader := { r with pos := r.pos + count }

variable {T : Target} {r : Reader} {p rest : Bytes}

theorem length_le_of_unread (h : r.unread = p ++ rest) :
    p.length ≤ r.data.length - r.pos := by
  have hlength := congrArg List.length h
  rw [unread, List.length_drop, List.length_append] at hlength
  omega

theorem skip_wellFormed (hr : r.WellFormed T) (h : r.unread = p ++ rest) :
    (r.skip p.length).WellFormed T := by
  have hlength := length_le_of_unread h
  have hpos := hr.pos_le
  refine ⟨hr.data_fits, ?_⟩
  simp only [skip]
  omega

theorem skip_unread (h : r.unread = p ++ rest) : (r.skip p.length).unread = rest := by
  rw [unread] at h
  rw [unread, skip, ← List.drop_drop, h, List.drop_left]

theorem skip_skip (r : Reader) (a b : Nat) : (r.skip a).skip b = r.skip (a + b) := by
  simp [skip, Nat.add_assoc]

end Reader

section

variable (T : Target)

/-- The code returns `value` wherever the unread octets start with `p`, and reads them. -/
def Reads {α : Type} (code : Read α) (p : Bytes) (value : α) : Prop :=
  ∀ r : Reader, r.WellFormed T → ∀ rest, r.unread = p ++ rest →
    code r = (.ok value, r.skip p.length)

variable {T}

namespace Reads

variable {α β : Type}

theorem pure (value : α) : Reads T (Pure.pure value) [] value := fun _ _ _ _ => rfl

theorem bind {first : Read α} {next : α → Read β} {p q : Bytes} {a : α} {b : β}
    (hfirst : Reads T first p a) (hnext : Reads T (next a) q b) :
    Reads T (first >>= next) (p ++ q) b := by
  intro r hr rest hunread
  rw [List.append_assoc] at hunread
  have hwell := Reader.skip_wellFormed hr hunread
  have hmid := Reader.skip_unread hunread
  rw [Checked.run_bind, hfirst r hr _ hunread]
  simp only [hnext _ hwell _ hmid, Reader.skip_skip, List.length_append]

theorem bind_last {first : Read α} {next : α → Read β} {p : Bytes} {a : α} {b : β}
    (hfirst : Reads T first p a) (hnext : Reads T (next a) [] b) :
    Reads T (first >>= next) p b := by
  have hboth := hfirst.bind hnext
  rwa [List.append_nil] at hboth

end Reads

theorem getElem?_of_unread {r : Reader} {octet : UInt8} {rest : Bytes}
    (h : r.unread = octet :: rest) : r.data[r.pos]? = some octet := by
  have hhead := congrArg List.head? h
  rwa [Reader.unread, List.head?_drop, List.head?_cons] at hhead

theorem reads_nextByte (octet : UInt8) : Reads T (nextByte T) [octet] octet := by
  intro r hr rest hunread
  exact nextByte_run T hr (getElem?_of_unread hunread)

theorem reads_readTag {tag : UInt8} (h : tag &&& 0x1f ≠ 0x1f) :
    Reads T (readTag T) [tag] tag := by
  intro r hr rest hunread
  have hnext := getElem?_of_unread hunread
  obtain ⟨hrun, -⟩ := advance_run T hr hnext
  simp [readTag, Checked.run_bind, peekTag, hnext, h, hrun, Reader.skip]

theorem reads_readLengthOctets (octets : Bytes) (len : Nat)
    (hroom : (len + 1) * 256 ^ octets.length ≤ 2 ^ T.usizeBits) :
    Reads T (readLengthOctets T octets.length len) octets
      (len * 256 ^ octets.length + beValue octets) := by
  induction octets generalizing len with
  | nil => simpa [readLengthOctets] using Reads.pure (T := T) len
  | cons octet octets ih =>
    have hoctet := octet.toNat_lt
    have hpow : 1 ≤ 256 ^ octets.length := Nat.one_le_pow _ _ (by omega)
    have hstep : (len + 1) * 256 * 256 ^ octets.length ≤ 2 ^ T.usizeBits := by
      rw [List.length_cons, pow_succ] at hroom
      nlinarith
    have hbyte : ((len <<< 8) % 2 ^ T.usizeBits) ||| octet.toNat = len * 256 + octet.toNat :=
      shift_or len octet (by nlinarith)
    have hvalue : len * 256 ^ (octet :: octets).length + beValue (octet :: octets) =
        (len * 256 + octet.toNat) * 256 ^ octets.length + beValue octets := by
      rw [beValue_cons, List.length_cons, pow_succ]
      ring
    rw [hvalue]
    apply (reads_nextByte octet).bind
    rw [hbyte]
    exact ih _ (le_trans (Nat.mul_le_mul_right _ (by omega)) hstep)

theorem reads_readLength {first : UInt8} {octets : Bytes} {len : Nat}
    (h : AcceptedLength len (first :: octets)) : Reads T (readLength T first) octets len := by
  have hwide := le_two_pow_usizeBits T
  cases h with
  | short n hn =>
    have hnat : (UInt8.ofNat len).toNat = len := by
      rw [UInt8.toNat_ofNat']
      omega
    have hle : UInt8.ofNat len ≤ 0x7f := by
      rw [UInt8.le_iff_toNat_le, hnat]
      exact Nat.le_of_lt_succ hn
    unfold readLength
    rw [if_pos hle, hnat]
    exact Reads.pure len
  | long octets hbig hcount =>
    have hpos : 0 < octets.length := by
      cases octets with
      | nil => simp at hbig
      | cons octet octets => simp
    have hnat : (UInt8.ofNat (128 + octets.length)).toNat = 128 + octets.length := by
      rw [UInt8.toNat_ofNat']
      omega
    have hnot : ¬ UInt8.ofNat (128 + octets.length) ≤ 0x7f := by
      rw [UInt8.le_iff_toNat_le, hnat]
      simp
      omega
    have hne : UInt8.ofNat (128 + octets.length) ≠ 0x80 := by
      intro heq
      have hvalue := congrArg UInt8.toNat heq
      have hdefinite : (0x80 : UInt8).toNat = 128 := rfl
      omega
    have hle : UInt8.ofNat (128 + octets.length) ≤ 0x84 := by
      rw [UInt8.le_iff_toNat_le, hnat]
      simp
      omega
    have hmask : (UInt8.ofNat (128 + octets.length) &&& 0x7f).toNat = octets.length := by
      have hmod : (UInt8.ofNat (128 + octets.length) &&& 0x7f).toNat =
          (UInt8.ofNat (128 + octets.length)).toNat % 128 := by
        rw [UInt8.toNat_and]
        exact Nat.and_two_pow_sub_one_eq_mod _ 7
      rw [hmod, hnat]
      omega
    have hpow : 256 ^ octets.length ≤ 256 ^ 4 := Nat.pow_le_pow_right (by omega) hcount
    have hoctets := reads_readLengthOctets (T := T) octets 0 (by omega)
    rw [Nat.zero_mul, Nat.zero_add] at hoctets
    unfold readLength
    rw [if_neg hnot, if_neg hne, if_pos hle, hmask]
    apply hoctets.bind_last
    rw [if_neg (by omega)]
    exact Reads.pure _

theorem reads_readContent (content : Bytes) :
    Reads T (readContent T content.length) content content := by
  intro r hr rest hunread
  have hlength := Reader.length_le_of_unread hunread
  have hpos := hr.pos_le
  have hfits := hr.data_fits
  have hpow := two_pow_usizeBits T
  have hslice : (r.data.take (r.pos + content.length)).drop r.pos = content := by
    rw [Reader.unread] at hunread
    rw [List.drop_take, Nat.add_sub_cancel_left, hunread, List.take_left]
  unfold readContent
  rw [if_neg (by omega), if_neg (by omega), if_pos ⟨by omega, by omega⟩, hslice]
  rfl

theorem reads_readTlv {tag : UInt8} {content p : Bytes} (hlow : tag &&& 0x1f ≠ 0x1f)
    (h : Tlv tag content p) : Reads T (readTlv T) p (tag, content) := by
  obtain ⟨length, hlength, rfl⟩ := h
  obtain ⟨first, octets, rfl⟩ := hlength.exists_cons
  have hsplit : tag :: (first :: octets ++ content) =
      [tag] ++ ([first] ++ (octets ++ content)) := rfl
  rw [hsplit]
  apply (reads_readTag hlow).bind
  apply (reads_nextByte first).bind
  apply (reads_readLength hlength).bind
  apply (reads_readContent content).bind_last
  exact Reads.pure _

theorem reads_readExpected {tag : UInt8} {content p : Bytes} (hlow : tag &&& 0x1f ≠ 0x1f)
    (h : Tlv tag content p) : Reads T (readExpected T tag) p content := by
  apply (reads_readTlv hlow h).bind_last
  simpa using Reads.pure (T := T) content

theorem reads_readSequence {content p : Bytes} (h : Tlv tagSequence content p) :
    Reads T (readSequence T) p (Reader.new content) :=
  (reads_readExpected (by decide) h).bind_last (Reads.pure _)

theorem reads_readExplicit {tag : UInt8} {content p : Bytes} (hlow : tag &&& 0x1f ≠ 0x1f)
    (h : Tlv tag content p) : Reads T (readExplicit T tag) p (Reader.new content) :=
  (reads_readExpected hlow h).bind_last (Reads.pure _)

theorem reads_readOctetString {content p : Bytes} (h : Tlv tagOctetString content p) :
    Reads T (readOctetString T) p content :=
  reads_readExpected (by decide) h

theorem reads_readOid {content p : Bytes} (hne : content ≠ []) (h : Tlv tagOid content p) :
    Reads T (readOid T) p content := by
  apply (reads_readExpected (by decide) h).bind_last
  rw [if_neg hne]
  exact Reads.pure content

theorem reads_readInteger_one {octet : UInt8} {p : Bytes} (h : Tlv tagInteger [octet] p) :
    Reads T (readInteger T) p [octet] :=
  (reads_readExpected (by decide) h).bind_last (Reads.pure [octet])

theorem reads_readBitString {bits p : Bytes} (h : Tlv tagBitString (0 :: bits) p) :
    Reads T (readBitString T) p bits := by
  apply (reads_readExpected (by decide) h).bind_last
  simpa using Reads.pure (T := T) bits

/-! ## The other direction -/

theorem readExpected_ok {r r' : Reader} {tag : UInt8} {content : Bytes} (hr : r.WellFormed T)
    (h : readExpected T tag r = (.ok content, r')) :
    ∃ p, Tlv tag content p ∧ Consumes r p r' ∧ r'.WellFormed T := by
  obtain ⟨⟨actual, value⟩, mid, htlv, hrest⟩ := Checked.bind_eq_ok h
  simp only at hrest
  split at hrest
  · simp at hrest
  · rename_i hsame
    simp only [Checked.run_pure, Prod.mk.injEq, Outcome.ok.injEq] at hrest
    obtain ⟨rfl, rfl⟩ := hrest
    rw [not_not] at hsame
    subst hsame
    obtain ⟨length, hlength, hconsumes, hwell⟩ := readTlv_ok T hr htlv
    exact ⟨_, ⟨length, hlength, rfl⟩, hconsumes, hwell⟩

theorem readSequence_ok {r r' seq : Reader} (hr : r.WellFormed T)
    (h : readSequence T r = (.ok seq, r')) :
    ∃ content p, seq = Reader.new content ∧ Tlv tagSequence content p ∧ Consumes r p r' ∧
      r'.WellFormed T := by
  obtain ⟨content, mid, hexpected, hrest⟩ := Checked.bind_eq_ok h
  simp only [Checked.run_pure, Prod.mk.injEq, Outcome.ok.injEq] at hrest
  obtain ⟨rfl, rfl⟩ := hrest
  obtain ⟨p, htlv, hconsumes, hwell⟩ := readExpected_ok hr hexpected
  exact ⟨content, p, rfl, htlv, hconsumes, hwell⟩

theorem readExplicit_ok {r r' inner : Reader} {tag : UInt8} (hr : r.WellFormed T)
    (h : readExplicit T tag r = (.ok inner, r')) :
    ∃ content p, inner = Reader.new content ∧ Tlv tag content p ∧ Consumes r p r' ∧
      r'.WellFormed T := by
  obtain ⟨content, mid, hexpected, hrest⟩ := Checked.bind_eq_ok h
  simp only [Checked.run_pure, Prod.mk.injEq, Outcome.ok.injEq] at hrest
  obtain ⟨rfl, rfl⟩ := hrest
  obtain ⟨p, htlv, hconsumes, hwell⟩ := readExpected_ok hr hexpected
  exact ⟨content, p, rfl, htlv, hconsumes, hwell⟩

theorem readOid_ok {r r' : Reader} {content : Bytes} (hr : r.WellFormed T)
    (h : readOid T r = (.ok content, r')) :
    content ≠ [] ∧ ∃ p, Tlv tagOid content p ∧ Consumes r p r' ∧ r'.WellFormed T := by
  obtain ⟨value, mid, hexpected, hrest⟩ := Checked.bind_eq_ok h
  split at hrest
  · simp at hrest
  · rename_i hne
    simp only [Checked.run_pure, Prod.mk.injEq, Outcome.ok.injEq] at hrest
    obtain ⟨rfl, rfl⟩ := hrest
    exact ⟨hne, readExpected_ok hr hexpected⟩

theorem readInteger_framed {r r' : Reader} {content : Bytes} (hr : r.WellFormed T)
    (h : readInteger T r = (.ok content, r')) :
    ∃ p, Tlv tagInteger content p ∧ Consumes r p r' ∧ r'.WellFormed T := by
  obtain ⟨length, hlength, hconsumes, hwell⟩ := readTlv_ok T hr (readInteger_ok T h).1
  exact ⟨_, ⟨length, hlength, rfl⟩, hconsumes, hwell⟩

theorem readBitString_ok {r r' : Reader} {bits : Bytes} (hr : r.WellFormed T)
    (h : readBitString T r = (.ok bits, r')) :
    ∃ p, Tlv tagBitString (0 :: bits) p ∧ Consumes r p r' ∧ r'.WellFormed T := by
  obtain ⟨content, mid, hexpected, hrest⟩ := Checked.bind_eq_ok h
  cases content with
  | nil => simp at hrest
  | cons unused rest =>
    simp only at hrest
    split at hrest
    · simp at hrest
    · rename_i hzero
      rw [not_not] at hzero
      simp only [Checked.run_pure, Prod.mk.injEq, Outcome.ok.injEq] at hrest
      obtain ⟨rfl, rfl⟩ := hrest
      rw [hzero] at hexpected
      exact readExpected_ok hr hexpected

end

end Stdx.Encoding.Der
