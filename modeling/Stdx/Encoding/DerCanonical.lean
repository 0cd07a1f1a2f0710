import Stdx.Encoding.Der

/-!
# Canonicity of the DER reader

The encodings X.690 allows are `DerLength` for the length octets and
`encodeInteger` for the content of an INTEGER.  Each accepted input is compared
with them.
-/

namespace Stdx.Encoding.Der

open Stdx.Foundation

/-! ## The encodings -/

/-- DER length octets: short form below 128, otherwise no leading zero octet. -/
inductive DerLength : Nat → Bytes → Prop
  | short (n : Nat) (h : n < 128) : DerLength n [UInt8.ofNat n]
  | long (octets : Bytes) (hbig : 128 ≤ beValue octets)
      (hcount : octets.length < 127) (hhead : octets.head? ≠ some 0) :
      DerLength (beValue octets)
        (UInt8.ofNat (128 + octets.length) :: octets)

def DerEncodes (tag : UInt8) (content p : Bytes) : Prop :=
  ∃ length, DerLength content.length length ∧ p = tag :: (length ++ content)

theorem DerLength.unique {n : Nat} {p p' : Bytes}
    (h : DerLength n p) (h' : DerLength n p') : p = p' := by
  cases h with
  | short n hn =>
    cases h' with
    | short => rfl
    | long octets hbig => omega
  | long octets hbig hcount hhead =>
    generalize hvalue : beValue octets = n at h'
    cases h' with
    | short n hn => omega
    | long octets' hbig' hcount' hhead' =>
      have : octets = octets' := by
        rw [← beOctets_beValue octets hhead, hvalue,
          beOctets_beValue octets' hhead']
      rw [this]

theorem DerEncodes.unique {tag : UInt8} {content p p' : Bytes}
    (h : DerEncodes tag content p) (h' : DerEncodes tag content p') : p = p' := by
  obtain ⟨length, hlength, rfl⟩ := h
  obtain ⟨length', hlength', rfl⟩ := h'
  rw [hlength.unique hlength']

def integerValue : Bytes → Int
  | [] => 0
  | first :: rest =>
    if first < 0x80 then .ofNat (beValue (first :: rest))
    else .negSucc (beValue ((first :: rest).map (~~~·)))

/-- The fewest octets of a natural number that leave the sign bit clear. -/
def encodeUnsigned (n : Nat) : Bytes :=
  match beOctets n with
  | [] => [0]
  | first :: rest => if first < 0x80 then first :: rest else 0 :: first :: rest

def encodeInteger : Int → Bytes
  | .ofNat n => encodeUnsigned n
  | .negSucc n => (encodeUnsigned n).map (~~~·)

/-! ## What the reader consumes -/

structure Consumes (r : Reader) (p : Bytes) (r' : Reader) : Prop where
  data_eq : r'.data = r.data
  pos_eq : r'.pos = r.pos + p.length
  unread_eq : r.unread = p ++ r'.unread

theorem Consumes.refl (r : Reader) : Consumes r [] r := ⟨rfl, rfl, rfl⟩

theorem Consumes.trans {r₁ r₂ r₃ : Reader} {p q : Bytes}
    (h : Consumes r₁ p r₂) (h' : Consumes r₂ q r₃) : Consumes r₁ (p ++ q) r₃ := by
  refine ⟨h'.data_eq.trans h.data_eq, ?_, ?_⟩
  · rw [h'.pos_eq, h.pos_eq, List.length_append, Nat.add_assoc]
  · rw [h.unread_eq, h'.unread_eq, List.append_assoc]

theorem Consumes.consumed_eq {r r' : Reader} {p : Bytes}
    (h : Consumes r p r') : r.consumed r' = p := by
  have hunread := h.unread_eq
  rw [Reader.unread] at hunread
  rw [Reader.consumed, hunread, h.pos_eq, Nat.add_sub_cancel_left]
  simp

section Reads

variable (T : Target)

private theorem consumes_one {r : Reader} {octet : UInt8}
    (h : r.data[r.pos]? = some octet) :
    Consumes r [octet] { r with pos := r.pos + 1 } := by
  obtain ⟨hlt, heq⟩ := List.getElem?_eq_some_iff.mp h
  refine ⟨rfl, rfl, ?_⟩
  simp only [Reader.unread]
  rw [List.drop_eq_getElem_cons hlt, heq]
  rfl

theorem nextByte_ok {r r' : Reader} {octet : UInt8} (hr : r.WellFormed T)
    (h : nextByte T r = (.ok octet, r')) :
    Consumes r [octet] r' ∧ r'.WellFormed T := by
  obtain ⟨mid, t, hpeek, -⟩ := Checked.bind_eq_ok h
  obtain ⟨-, hnext⟩ := peekTag_eq_ok hpeek
  rw [nextByte_run T hr hnext] at h
  simp only [Prod.mk.injEq, Outcome.ok.injEq] at h
  obtain ⟨rfl, rfl⟩ := h
  exact ⟨consumes_one hnext, (advance_run T hr hnext).2⟩

theorem readTag_ok {r r' : Reader} {tag : UInt8} (hr : r.WellFormed T)
    (h : readTag T r = (.ok tag, r')) :
    Consumes r [tag] r' ∧ r'.WellFormed T ∧ tag &&& 0x1f ≠ 0x1f := by
  obtain ⟨mid, t, hpeek, hrest⟩ := Checked.bind_eq_ok h
  obtain ⟨rfl, hnext⟩ := peekTag_eq_ok hpeek
  obtain ⟨hrun, hwell⟩ := advance_run T hr hnext
  split at hrest
  · simp at hrest
  · next hlow =>
    simp only [Checked.run_bind, hrun, Checked.run_pure, Prod.mk.injEq,
      Outcome.ok.injEq] at hrest
    obtain ⟨rfl, rfl⟩ := hrest
    exact ⟨consumes_one hnext, hwell, hlow⟩

theorem shift_or (len : Nat) (octet : UInt8) {bits : Nat}
    (h : len * 256 + 256 ≤ 2 ^ bits) :
    ((len <<< 8) % 2 ^ bits) ||| octet.toNat = len * 256 + octet.toNat := by
  have hoctet := octet.toNat_lt
  rw [Nat.shiftLeft_eq, Nat.mod_eq_of_lt (by omega), Nat.mul_comm]
  exact (Nat.two_pow_add_eq_or_of_lt (i := 8) (by omega) len).symm

theorem readLengthOctets_ok (n len : Nat) {r r' : Reader} {value : Nat}
    (hr : r.WellFormed T) (hroom : (len + 1) * 256 ^ n ≤ 2 ^ T.usizeBits)
    (h : readLengthOctets T n len r = (.ok value, r')) :
    ∃ octets, octets.length = n ∧ Consumes r octets r' ∧ r'.WellFormed T ∧
      value = len * 256 ^ n + beValue octets := by
  induction n generalizing len r with
  | zero =>
    simp only [readLengthOctets, Checked.run_pure, Prod.mk.injEq,
      Outcome.ok.injEq] at h
    obtain ⟨rfl, rfl⟩ := h
    exact ⟨[], rfl, Consumes.refl r, hr, by simp⟩
  | succ n ih =>
    obtain ⟨octet, mid, hnext, hrest⟩ := Checked.bind_eq_ok h
    obtain ⟨hone, hmid⟩ := nextByte_ok T hr hnext
    have hoctet := octet.toNat_lt
    have hpow : 1 ≤ 256 ^ n := Nat.one_le_pow _ _ (by omega)
    have hstep : (len + 1) * 256 * 256 ^ n ≤ 2 ^ T.usizeBits := by
      rw [pow_succ] at hroom
      nlinarith
    rw [shift_or len octet (by nlinarith)] at hrest
    obtain ⟨octets, hlength, hmore, hwell, hvalue⟩ := ih
      (len * 256 + octet.toNat) hmid
      (le_trans (Nat.mul_le_mul_right _ (by omega)) hstep) hrest
    refine ⟨octet :: octets, by simp [hlength], hone.trans hmore, hwell, ?_⟩
    rw [hvalue, beValue_cons, hlength, pow_succ]
    ring

/-- The length octets the reader takes: any four-octet long form from 128 up. -/
inductive AcceptedLength : Nat → Bytes → Prop
  | short (n : Nat) (h : n < 128) : AcceptedLength n [UInt8.ofNat n]
  | long (octets : Bytes) (hbig : 128 ≤ beValue octets)
      (hcount : octets.length ≤ 4) :
      AcceptedLength (beValue octets)
        (UInt8.ofNat (128 + octets.length) :: octets)

theorem readLength_ok {first : UInt8} {r r' : Reader} {len : Nat}
    (hr : r.WellFormed T) (h : readLength T first r = (.ok len, r')) :
    ∃ octets, Consumes r octets r' ∧ r'.WellFormed T ∧
      AcceptedLength len (first :: octets) := by
  unfold readLength at h
  split at h
  · next hshort =>
    simp only [Checked.run_pure, Prod.mk.injEq, Outcome.ok.injEq] at h
    obtain ⟨rfl, rfl⟩ := h
    have hlt : first.toNat < 128 := by
      have := UInt8.le_iff_toNat_le.mp hshort
      simp at this
      omega
    refine ⟨[], Consumes.refl r, hr, ?_⟩
    simpa using AcceptedLength.short first.toNat hlt
  split at h
  · simp at h
  split at h
  · next hnot hne hle =>
    obtain ⟨value, mid, hoctets, hrest⟩ := Checked.bind_eq_ok h
    have hlow : 128 < first.toNat ∧ first.toNat ≤ 132 := by
      have h1 : ¬ first.toNat ≤ 127 := by
        simpa [UInt8.le_iff_toNat_le] using hnot
      have h2 : first.toNat ≠ 128 := by
        simpa [← UInt8.toNat_inj] using hne
      have h3 : first.toNat ≤ 132 := by
        simpa [UInt8.le_iff_toNat_le] using hle
      omega
    have hcount : (first &&& 0x7f).toNat = first.toNat - 128 := by
      have hmask : (first &&& 0x7f).toNat = first.toNat % 128 := by
        rw [UInt8.toNat_and]
        exact Nat.and_two_pow_sub_one_eq_mod _ 7
      omega
    have hwide := le_two_pow_usizeBits T
    have hpow : 256 ^ (first &&& 0x7f).toNat ≤ 256 ^ 4 :=
      Nat.pow_le_pow_right (by omega) (by omega)
    obtain ⟨octets, hlength, hconsumes, hwell, hvalue⟩ :=
      readLengthOctets_ok T _ 0 hr (by omega) hoctets
    split at hrest
    · simp at hrest
    · next hbig =>
      simp only [Checked.run_pure, Prod.mk.injEq, Outcome.ok.injEq] at hrest
      obtain ⟨rfl, rfl⟩ := hrest
      rw [Nat.zero_mul, Nat.zero_add] at hvalue
      refine ⟨octets, hconsumes, hwell, ?_⟩
      have hfirst : first = UInt8.ofNat (128 + octets.length) := by
        rw [hlength, hcount, ← UInt8.toNat_inj]
        simp
        omega
      rw [hfirst, hvalue]
      exact .long octets (by omega) (by omega)
  · simp at h

theorem readContent_ok {len : Nat} {r r' : Reader} {content : Bytes}
    (hr : r.WellFormed T) (h : readContent T len r = (.ok content, r')) :
    content.length = len ∧ Consumes r content r' ∧ r'.WellFormed T := by
  unfold readContent at h
  simp only at h
  split at h
  · simp at h
  split at h
  · simp at h
  split at h
  · next hstop =>
    simp only [Prod.mk.injEq, Outcome.ok.injEq] at h
    obtain ⟨rfl, rfl⟩ := h
    have hlength : ((r.data.take (r.pos + len)).drop r.pos).length = len := by
      simp
      omega
    refine ⟨hlength, ⟨rfl, by rw [hlength], ?_⟩, ⟨hr.data_fits, hstop.2⟩⟩
    simp only [Reader.unread, List.drop_take, Nat.add_sub_cancel_left]
    rw [← List.drop_drop, List.take_append_drop]
  · simp at h

theorem readTlv_ok {r r' : Reader} {tag : UInt8} {content : Bytes}
    (hr : r.WellFormed T) (h : readTlv T r = (.ok (tag, content), r')) :
    ∃ length, AcceptedLength content.length length ∧
      Consumes r (tag :: (length ++ content)) r' ∧ r'.WellFormed T := by
  obtain ⟨tag', r₁, htag, h⟩ := Checked.bind_eq_ok h
  obtain ⟨first, r₂, hfirst, h⟩ := Checked.bind_eq_ok h
  obtain ⟨len, r₃, hlen, h⟩ := Checked.bind_eq_ok h
  obtain ⟨content', r₄, hcontent, h⟩ := Checked.bind_eq_ok h
  simp only [Checked.run_pure, Prod.mk.injEq, Outcome.ok.injEq] at h
  obtain ⟨⟨rfl, rfl⟩, rfl⟩ := h
  obtain ⟨hc₁, hw₁, -⟩ := readTag_ok T hr htag
  obtain ⟨hc₂, hw₂⟩ := nextByte_ok T hw₁ hfirst
  obtain ⟨octets, hc₃, hw₃, haccepted⟩ := readLength_ok T hw₂ hlen
  obtain ⟨rfl, hc₄, hw₄⟩ := readContent_ok T hw₃ hcontent
  exact ⟨first :: octets, haccepted,
    by simpa using ((hc₁.trans hc₂).trans hc₃).trans hc₄, hw₄⟩

end Reads

/-! ## Self-delimiting length octets -/

/-- Definite length octets, minimal or not. -/
inductive BerLength : Nat → Bytes → Prop
  | short (n : Nat) (h : n < 128) : BerLength n [UInt8.ofNat n]
  | long (octets : Bytes) (hpos : 0 < octets.length)
      (hcount : octets.length < 127) :
      BerLength (beValue octets) (UInt8.ofNat (128 + octets.length) :: octets)

theorem length_pos_of_big {octets : Bytes} (h : 128 ≤ beValue octets) :
    0 < octets.length := by
  cases octets with
  | nil => simp at h
  | cons => simp

theorem DerLength.toBer {n : Nat} {p : Bytes} (h : DerLength n p) :
    BerLength n p := by
  cases h with
  | short n hn => exact .short n hn
  | long octets hbig hcount => exact .long octets (length_pos_of_big hbig) hcount

theorem AcceptedLength.toBer {n : Nat} {p : Bytes} (h : AcceptedLength n p) :
    BerLength n p := by
  cases h with
  | short n hn => exact .short n hn
  | long octets hbig hcount =>
    exact .long octets (length_pos_of_big hbig) (by omega)

private theorem ofNat_inj_of_lt {m n : Nat} (hm : m < 256) (hn : n < 256)
    (h : UInt8.ofNat m = UInt8.ofNat n) : m = n := by
  have := congrArg UInt8.toNat h
  simpa [Nat.mod_eq_of_lt hm, Nat.mod_eq_of_lt hn] using this

/-- Two encodings with a common extension are equal, so the rest is too. -/
theorem BerLength.prefix_free {n m : Nat} {p q x y : Bytes}
    (hp : BerLength n p) (hq : BerLength m q) (h : p ++ x = q ++ y) :
    p = q ∧ x = y := by
  cases hp with
  | short n hn =>
    cases hq with
    | short m hm =>
      simp only [List.cons_append, List.nil_append, List.cons.injEq] at h
      exact ⟨by rw [h.1], h.2⟩
    | long octets hpos hcount =>
      simp only [List.cons_append, List.nil_append, List.cons.injEq] at h
      have := ofNat_inj_of_lt (by omega) (by omega) h.1
      omega
  | long octets hpos hcount =>
    cases hq with
    | short m hm =>
      simp only [List.cons_append, List.nil_append, List.cons.injEq] at h
      have := ofNat_inj_of_lt (by omega) (by omega) h.1
      omega
    | long octets' hpos' hcount' =>
      simp only [List.cons_append, List.cons.injEq] at h
      have hlength := ofNat_inj_of_lt (by omega) (by omega) h.1
      obtain ⟨rfl, rfl⟩ := List.append_inj h.2 (by omega)
      exact ⟨rfl, rfl⟩

/-! ## Accepted values against the encodings -/

def LeadingZeroLength : Bytes → Prop
  | _ :: first :: octet :: _ => 0x80 < first ∧ octet = 0
  | _ => False

instance (input : Bytes) : Decidable (LeadingZeroLength input) := by
  unfold LeadingZeroLength
  split <;> infer_instance

theorem AcceptedLength.der_iff {n : Nat} {length : Bytes} (tag : UInt8)
    (rest : Bytes) (h : AcceptedLength n length) :
    DerLength n length ↔ ¬ LeadingZeroLength (tag :: (length ++ rest)) := by
  cases h with
  | short n hn =>
    refine ⟨fun _ => ?_, fun _ => .short n hn⟩
    have hfirst : ¬ (0x80 : UInt8) < UInt8.ofNat n := by
      rw [UInt8.lt_iff_toNat_lt]
      simp
      omega
    cases rest <;> simp [LeadingZeroLength, hfirst]
  | long octets hbig hcount =>
    have hpos := length_pos_of_big hbig
    have hfirst : (0x80 : UInt8) < UInt8.ofNat (128 + octets.length) := by
      rw [UInt8.lt_iff_toNat_lt]
      simp
      omega
    have hzero : LeadingZeroLength
        (tag :: (UInt8.ofNat (128 + octets.length) :: octets ++ rest)) ↔
          octets.head? = some 0 := by
      cases octets with
      | nil => simp at hpos
      | cons octet octets =>
        simp only [LeadingZeroLength, List.cons_append, List.head?_cons,
          Option.some.injEq, hfirst, true_and]
    rw [hzero]
    constructor
    · intro hder
      generalize hvalue : beValue octets = n at hder
      generalize hlength :
        (UInt8.ofNat (128 + octets.length) :: octets) = length at hder
      cases hder with
      | short n hn => omega
      | long octets' hbig' hcount' hhead' =>
        simp only [List.cons.injEq] at hlength
        rw [hlength.2]
        exact hhead'
    · intro hhead
      exact .long octets hbig (by omega) hhead

theorem readTlv_der_iff (T : Target) {r r' : Reader} {tag : UInt8}
    {content : Bytes} (hr : r.WellFormed T)
    (h : readTlv T r = (.ok (tag, content), r')) :
    DerEncodes tag content (r.consumed r') ↔ ¬ LeadingZeroLength r.unread := by
  obtain ⟨length, haccepted, hconsumes, -⟩ := readTlv_ok T hr h
  have hder := haccepted.der_iff tag (content ++ r'.unread)
  have hunread : r.unread = tag :: (length ++ (content ++ r'.unread)) := by
    rw [hconsumes.unread_eq]
    simp
  rw [hconsumes.consumed_eq, hunread, ← hder]
  constructor
  · rintro ⟨length', hlength', heq⟩
    obtain ⟨-, heq⟩ := List.cons.inj heq
    rw [(BerLength.prefix_free haccepted.toBer hlength'.toBer heq).1]
    exact hlength'
  · intro hlength
    exact ⟨length, hlength, rfl⟩

/-! ## INTEGER contents -/

/-- Nine equal leading bits, all ones: the first octet adds nothing. -/
def RedundantSign : Bytes → Prop
  | first :: second :: _ => first = 0xff ∧ 0x80 ≤ second
  | _ => False

instance (content : Bytes) : Decidable (RedundantSign content) := by
  unfold RedundantSign
  split <;> infer_instance

theorem encodeUnsigned_beValue {first : UInt8} {rest : Bytes}
    (hsign : first < 0x80)
    (hzero : ∀ second tail, rest = second :: tail → first = 0 → 0x80 ≤ second) :
    encodeUnsigned (beValue (first :: rest)) = first :: rest := by
  by_cases hfirst : first = 0
  · subst hfirst
    cases rest with
    | nil => decide
    | cons second tail =>
      have hsecond := hzero second tail rfl rfl
      have hhead : (second :: tail).head? ≠ some 0 := by
        intro hnull
        simp only [List.head?_cons, Option.some.injEq] at hnull
        subst hnull
        exact absurd hsecond (by decide)
      have hvalue : beValue (0 :: second :: tail) = beValue (second :: tail) := by
        rw [beValue_cons 0]
        simp
      rw [encodeUnsigned, hvalue, beOctets_beValue _ hhead]
      simp [UInt8.not_lt.mpr hsecond]
  · have hhead : (first :: rest).head? ≠ some 0 := by simpa using hfirst
    rw [encodeUnsigned, beOctets_beValue _ hhead]
    simp [hsign]

theorem encodeUnsigned_head (n : Nat) :
    ∃ first rest, encodeUnsigned n = first :: rest ∧ first < 0x80 ∧
      ∀ second tail, rest = second :: tail → first = 0 → 0x80 ≤ second := by
  unfold encodeUnsigned
  have hhead := beOctets_head?_ne_zero n
  split
  · exact ⟨0, [], rfl, by decide, by simp⟩
  · next first rest heq =>
    rw [heq] at hhead
    split
    · next hsmall =>
      exact ⟨first, rest, rfl, hsmall,
        fun _ _ _ hzero => absurd hzero (by simpa using hhead)⟩
    · next hbig =>
      refine ⟨0, first :: rest, rfl, by decide, ?_⟩
      intro second tail htail _
      simp only [List.cons.injEq] at htail
      rw [← htail.1]
      exact UInt8.not_lt.mp hbig

private theorem not_lt_sign (octet : UInt8) :
    ~~~octet < 0x80 ↔ 0x80 ≤ octet := by
  have hnot : (~~~octet).toNat = 255 - octet.toNat := by
    simp [UInt8.toNat_not]
  have hlt := octet.toNat_lt
  rw [UInt8.lt_iff_toNat_lt, UInt8.le_iff_toNat_le, hnot]
  simp
  omega

private theorem map_not_not (content : Bytes) :
    (content.map (~~~·)).map (~~~·) = content := by
  simp [Function.comp_def]

/-- Contents that pass the leading-zero check re-encode unless `RedundantSign`. -/
theorem encodeInteger_integerValue {first : UInt8} {rest : Bytes}
    (hzero : ∀ second tail, rest = second :: tail → first = 0 → 0x80 ≤ second) :
    encodeInteger (integerValue (first :: rest)) = first :: rest ↔
      ¬ RedundantSign (first :: rest) := by
  by_cases hsign : first < 0x80
  · have hencode := encodeUnsigned_beValue hsign hzero
    have hplain : ¬ RedundantSign (first :: rest) := by
      cases rest with
      | nil => simp [RedundantSign]
      | cons second tail =>
        rintro ⟨rfl, -⟩
        exact absurd hsign (by decide)
    simp [integerValue, encodeInteger, hsign, hencode, hplain]
  · simp only [integerValue, hsign, if_false, encodeInteger]
    have hnot : ~~~first < 0x80 := (not_lt_sign first).mpr (UInt8.not_lt.mp hsign)
    constructor
    · intro hencode hredundant
      obtain ⟨lead, tail, hlead, -, hminimal⟩ :=
        encodeUnsigned_head (beValue ((first :: rest).map (~~~·)))
      rw [hlead] at hencode
      cases rest with
      | nil => simp [RedundantSign] at hredundant
      | cons second more =>
        obtain ⟨rfl, hsecond⟩ := hredundant
        cases tail with
        | nil => simp at hencode
        | cons next tail =>
          simp only [List.map_cons, List.cons.injEq] at hencode
          have hlead0 : lead = 0 := by
            have hnot := congrArg (~~~·) hencode.1
            simp only [UInt8.not_not] at hnot
            exact hnot.trans (by decide)
          have hnext := hminimal next tail rfl hlead0
          rw [← hencode.2.1] at hsecond
          have := (not_lt_sign (~~~next)).mpr hsecond
          simp only [UInt8.not_not] at this
          exact absurd hnext (UInt8.not_le.mpr this)
    · intro hplain
      rw [List.map_cons, encodeUnsigned_beValue hnot, ← List.map_cons, map_not_not]
      intro second tail hrest hfirst
      cases rest with
      | nil => simp at hrest
      | cons next more =>
        simp only [List.map_cons, List.cons.injEq] at hrest
        have hff : first = 0xff := by
          have hback := congrArg (~~~·) hfirst
          simp only [UInt8.not_not] at hback
          exact hback.trans (by decide)
        have hnext : ¬ 0x80 ≤ next := fun hle => hplain ⟨hff, hle⟩
        rw [← hrest.1]
        by_contra hcon
        have := (not_lt_sign next).mp (UInt8.not_le.mp hcon)
        exact hnext this

/-- The content a length header announces, read off the input itself. -/
def declaredContent : Bytes → Bytes
  | _ :: first :: rest =>
    if first ≤ 0x7f then rest.take first.toNat
    else
      let count := first.toNat % 128
      (rest.drop count).take (beValue (rest.take count))
  | _ => []

theorem AcceptedLength.declaredContent_eq {length content : Bytes} (tag : UInt8)
    (rest : Bytes) (h : AcceptedLength content.length length) :
    declaredContent (tag :: (length ++ (content ++ rest))) = content := by
  generalize hn : content.length = n at h
  cases h with
  | short n hn' =>
    have hfirst : UInt8.ofNat n ≤ 0x7f := by
      rw [UInt8.le_iff_toNat_le]
      simp
      omega
    have hvalue : (UInt8.ofNat n).toNat = content.length := by
      simp
      omega
    simp [declaredContent, hfirst, hvalue]
  | long octets hbig hcount =>
    have hlong : ¬ UInt8.ofNat (128 + octets.length) ≤ 0x7f := by
      rw [UInt8.le_iff_toNat_le]
      simp
      omega
    have hvalue : (UInt8.ofNat (128 + octets.length)).toNat % 128 =
        octets.length := by
      simp
      omega
    simp only [declaredContent, List.cons_append, hlong, if_false, hvalue]
    rw [List.take_left, List.drop_left, ← hn, List.take_left]

section Integer

variable (T : Target)

theorem readInteger_ok {r r' : Reader} {content : Bytes}
    (h : readInteger T r = (.ok content, r')) :
    readTlv T r = (.ok (tagInteger, content), r') ∧
      ∃ first rest, content = first :: rest ∧
        ∀ second tail, rest = second :: tail → first = 0 → 0x80 ≤ second := by
  obtain ⟨content', mid, hexpected, hrest⟩ := Checked.bind_eq_ok h
  obtain ⟨⟨actual, content''⟩, mid', htlv, htag⟩ := Checked.bind_eq_ok hexpected
  simp only at htag
  split at htag
  · simp at htag
  · next htag' =>
    simp only [Checked.run_pure, Prod.mk.injEq, Outcome.ok.injEq] at htag
    obtain ⟨rfl, rfl⟩ := htag
    rw [not_not] at htag'
    subst htag'
    split at hrest
    · simp at hrest
    · simp only [Checked.run_pure, Prod.mk.injEq, Outcome.ok.injEq] at hrest
      obtain ⟨rfl, rfl⟩ := hrest
      exact ⟨htlv, _, [], rfl, by simp⟩
    · next first second tail =>
      split at hrest
      · simp at hrest
      · next hcheck =>
        simp only [Checked.run_pure, Prod.mk.injEq, Outcome.ok.injEq] at hrest
        obtain ⟨rfl, rfl⟩ := hrest
        refine ⟨htlv, first, second :: tail, rfl, ?_⟩
        intro second' tail' htail hzero
        simp only [List.cons.injEq] at htail
        rw [← htail.1]
        by_contra hsmall
        apply hcheck
        refine ⟨hzero, ?_⟩
        have hlt := UInt8.lt_iff_toNat_lt.mp (UInt8.not_le.mp hsmall)
        rw [← UInt8.toNat_inj, UInt8.toNat_and]
        have hclear : ∀ n : Fin 128, n.val &&& 128 = 0 := by decide
        exact hclear ⟨second.toNat, hlt⟩

theorem readInteger_der_iff {r r' : Reader} {content : Bytes}
    (hr : r.WellFormed T) (h : readInteger T r = (.ok content, r')) :
    DerEncodes tagInteger (encodeInteger (integerValue content))
        (r.consumed r') ↔
      ¬ LeadingZeroLength r.unread ∧
        ¬ RedundantSign (declaredContent r.unread) := by
  obtain ⟨htlv, first, rest, rfl, hzero⟩ := readInteger_ok T h
  obtain ⟨length, haccepted, hconsumes, -⟩ := readTlv_ok T hr htlv
  have hdeclared : declaredContent r.unread = first :: rest := by
    rw [hconsumes.unread_eq]
    simpa using haccepted.declaredContent_eq tagInteger r'.unread
  rw [hdeclared, ← readTlv_der_iff T hr htlv,
    ← encodeInteger_integerValue hzero, hconsumes.consumed_eq]
  constructor
  · rintro ⟨length', hlength', heq⟩
    obtain ⟨-, heq⟩ := List.cons.inj heq
    obtain ⟨rfl, hcontent⟩ :=
      BerLength.prefix_free haccepted.toBer hlength'.toBer heq
    rw [← hcontent] at hlength'
    exact ⟨⟨length, hlength', rfl⟩, hcontent.symm⟩
  · rintro ⟨hder, hencode⟩
    rw [hencode]
    exact hder

end Integer

/-! ## The reader as a whole -/

/--
No well-formed reader panics; what `readTlv` consumed is the one DER encoding of
its result exactly when a long-form length does not start with a zero octet, and
what `readInteger` consumed is the one DER encoding of the integer's value
exactly when, besides, the content does not repeat a set sign bit.
-/
theorem reader_canonical_iff (T : Target) (r : Reader) (hr : r.WellFormed T) :
    ((readTlv T r).1 ≠ .panic ∧ (readInteger T r).1 ≠ .panic ∧
      (readBitString T r).1 ≠ .panic ∧ (readOid T r).1 ≠ .panic ∧
      ∀ tag, (readExpected T tag r).1 ≠ .panic) ∧
    (∀ tag content r', readTlv T r = (.ok (tag, content), r') →
      ((∀ p, DerEncodes tag content p ↔ p = r.consumed r') ↔
        ¬ LeadingZeroLength r.unread)) ∧
    (∀ content r', readInteger T r = (.ok content, r') →
      ((∀ p, DerEncodes tagInteger (encodeInteger (integerValue content)) p ↔
          p = r.consumed r') ↔
        ¬ LeadingZeroLength r.unread ∧
          ¬ RedundantSign (declaredContent r.unread))) := by
  have hunique : ∀ (tag : UInt8) (content q : Bytes),
      (∀ p, DerEncodes tag content p ↔ p = q) ↔ DerEncodes tag content q := by
    intro tag content q
    refine ⟨fun h => (h q).mpr rfl, fun h p => ⟨fun hp => hp.unique h, ?_⟩⟩
    rintro rfl
    exact h
  refine ⟨⟨(readTlv_safe T r hr).1, (readInteger_safe T r hr).1,
    (readBitString_safe T r hr).1, (readOid_safe T r hr).1,
    fun tag => (readExpected_safe T tag r hr).1⟩, ?_, ?_⟩
  · intro tag content r' h
    rw [hunique]
    exact readTlv_der_iff T hr h
  · intro content r' h
    rw [hunique]
    exact readInteger_der_iff T hr h

/-- `02 01 05`, read on a 64-bit target. -/
theorem reader_canonical_iff_five :
    DerEncodes tagInteger (encodeInteger (integerValue [0x05])) [0x02, 0x01, 0x05] :=
  (((reader_canonical_iff ⟨64, by decide⟩ (Reader.new [0x02, 0x01, 0x05])
    ⟨by decide, by decide⟩).2.2 [0x05] ⟨[0x02, 0x01, 0x05], 3⟩ (by decide)).mpr
    (by decide) [0x02, 0x01, 0x05]).mpr rfl

/--
`04 82 00 80` and 128 octets is accepted although two length octets are one too
many, and `02 02 ff 80` is accepted as an INTEGER although `80` alone has its
value.
-/
theorem reader_accepts_nonminimal :
    ¬ (∀ (T : Target) (r r' : Reader) (tag : UInt8) (content : Bytes),
      r.WellFormed T → readTlv T r = (.ok (tag, content), r') →
        DerEncodes tag content (r.consumed r')) ∧
    ¬ (∀ (T : Target) (r r' : Reader) (content : Bytes),
      r.WellFormed T → readInteger T r = (.ok content, r') →
        DerEncodes tagInteger (encodeInteger (integerValue content))
          (r.consumed r')) := by
  constructor
  · intro hall
    have hwell : (Reader.new ([0x04, 0x82, 0x00, 0x80] ++
        List.replicate 128 0)).WellFormed ⟨64, by decide⟩ :=
      ⟨by simp [Reader.new], by simp [Reader.new]⟩
    have hrun : readTlv ⟨64, by decide⟩ (Reader.new ([0x04, 0x82, 0x00, 0x80] ++
        List.replicate 128 0)) =
        (.ok (0x04, List.replicate 128 0),
          ⟨[0x04, 0x82, 0x00, 0x80] ++ List.replicate 128 0, 132⟩) := by
      decide +kernel
    exact (readTlv_der_iff _ hwell hrun).mp (hall _ _ _ _ _ hwell hrun) (by decide)
  · intro hall
    have hwell : (Reader.new [0x02, 0x02, 0xff, 0x80]).WellFormed
        ⟨64, by decide⟩ := ⟨by decide, by decide⟩
    have hrun : readInteger ⟨64, by decide⟩ (Reader.new [0x02, 0x02, 0xff, 0x80]) =
        (.ok [0xff, 0x80], ⟨[0x02, 0x02, 0xff, 0x80], 4⟩) := by
      decide
    exact ((readInteger_der_iff _ hwell hrun).mp
      (hall _ _ _ _ hwell hrun)).2 (by decide)

end Stdx.Encoding.Der
