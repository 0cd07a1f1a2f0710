import Stdx.Encoding.Pkcs8

/-!
# The two decoders agree

`PrivateKeyInfo` says which octets hold a scalar for a curve: nested values with nothing
behind them at any level.  `decode_ec_pkcs8_der` accepts these and no others, and the P-256
template is one of them.
-/

namespace Stdx.Encoding.Pkcs8

open Stdx.Foundation Stdx.Encoding.Der Stdx.PCurves

/-! ## The grammar -/

/-- A row of fields, each of which takes the state on. -/
inductive Fields {σ : Type} (Field : σ → Bytes → σ → Prop) : σ → Bytes → σ → Prop
  | nil (s : σ) : Fields Field s [] s
  | cons {s t u : σ} {p rest : Bytes} (head : Field s p t) (tail : Fields Field t rest u) :
      Fields Field s (p ++ rest) u

/-- The parameters name a curve, the one named before if there is one; the public key is
any bit string. -/
inductive Sec1Field : Option NamedCurve → Bytes → Option NamedCurve → Prop
  | parameters {curve : Option NamedCurve} {parsed : NamedCurve} {oid value p : Bytes}
      (named : curveFromOid oid = .ok parsed) (oid_framed : Tlv tagOid oid value)
      (framed : Tlv 0xa0 value p) (same : ∀ c ∈ curve, c = parsed) :
      Sec1Field curve p (some parsed)
  | publicKey {curve : Option NamedCurve} {bits value p : Bytes}
      (bits_framed : Tlv tagBitString (0 :: bits) value) (framed : Tlv 0xa1 value p) :
      Sec1Field curve p curve

inductive AttributesField : Unit → Bytes → Unit → Prop
  | attributes {content p : Bytes} (framed : Tlv 0xa0 content p) : AttributesField () p ()

/-- An RFC 5915 `ECPrivateKey` with the curve its parameters name. -/
structure EcPrivateKeyInfo (curve : Option NamedCurve) (scalar der : Bytes) : Prop where
  exists_parts : ∃ version key fields, Tlv tagInteger [0x01] version ∧
    Tlv tagOctetString scalar key ∧ Fields Sec1Field none fields curve ∧
    Tlv tagSequence (version ++ key ++ fields) der

structure PrivateKeyInfo (curve : NamedCurve) (scalar der : Bytes) : Prop where
  exists_parts : ∃ version algorithmOid curveOid curveOidValue algorithm privateKey wrapped
      attributes inner,
    Tlv tagInteger [0x00] version ∧ Tlv tagOid OID_EC_PUBLIC_KEY algorithmOid ∧
    curveFromOid curveOidValue = .ok curve ∧ Tlv tagOid curveOidValue curveOid ∧
    Tlv tagSequence (algorithmOid ++ curveOid) algorithm ∧
    EcPrivateKeyInfo inner scalar privateKey ∧ (∀ c ∈ inner, c = curve) ∧
    Tlv tagOctetString privateKey wrapped ∧ Fields AttributesField () attributes () ∧
    Tlv tagSequence (version ++ algorithm ++ wrapped ++ attributes) der

theorem curveFromOid_ne_nil {oid : Bytes} {curve : NamedCurve}
    (h : curveFromOid oid = .ok curve) : oid ≠ [] := by
  rintro rfl
  simp [curveFromOid, OID_SECP256R1, OID_SECP384R1] at h

/-! ## One call -/

section

variable {T : Target} {α : Type}

theorem call_eq_ok {code : Read α} {r r' : Reader} {value : α} :
    call code r = .ok (value, r') ↔ code r = (.ok value, r') := by
  unfold call
  split
  · rename_i heq
    rw [heq]
    simp
  · rename_i heq
    rw [heq]
    simp
  · rename_i heq
    rw [heq]
    simp

theorem call_of_reads {code : Read α} {p rest : Bytes} {value : α} (h : Reads T code p value)
    {r : Reader} (hr : r.WellFormed T) (hunread : r.unread = p ++ rest) :
    call code r = .ok (value, r.skip p.length) :=
  call_eq_ok.mpr (h r hr rest hunread)

theorem skip_of_consumes {r r' : Reader} {p : Bytes} (h : Consumes r p r') :
    r' = r.skip p.length := by
  cases r'
  simp only [Reader.skip, Reader.mk.injEq]
  exact ⟨h.data_eq, h.pos_eq⟩

theorem finished_eq_ok {r : Reader} (hr : r.WellFormed T) :
    finished r = .ok () ↔ r.unread = [] := by
  have hpos := hr.pos_le
  rw [Reader.unread, List.drop_eq_nil_iff]
  unfold finished finish
  split
  · rename_i hok
    split at hok
    · simp
      omega
    · simp at hok
  · rename_i herror
    split at herror
    · simp at herror
    · simp
      omega

theorem isEmpty_iff {r : Reader} : r.isEmpty = true ↔ r.unread = [] := by
  rw [Reader.isEmpty, decide_eq_true_iff, Reader.unread, List.drop_eq_nil_iff]

theorem new_unread (data : Bytes) : (Reader.new data).unread = data := rfl

theorem new_wellFormed_of_tlv {r : Reader} (hr : r.WellFormed T) {tag : UInt8}
    {content p rest : Bytes} (htlv : Tlv tag content p) (hunread : r.unread = p ++ rest) :
    (Reader.new content).WellFormed T := by
  obtain ⟨length, -, rfl⟩ := htlv
  have hlength := Reader.length_le_of_unread hunread
  have hfits := hr.data_fits
  apply Reader.new_wellFormed
  simp only [List.length_cons, List.length_append] at hlength
  omega

theorem peekTag_of_tlv {r : Reader} {tag : UInt8} {content p rest : Bytes}
    (htlv : Tlv tag content p) (hunread : r.unread = p ++ rest) :
    call peekTag r = .ok (tag, r) := by
  obtain ⟨length, -, rfl⟩ := htlv
  have hnext := getElem?_of_unread hunread
  rw [call_eq_ok, peekTag, hnext]

theorem call_whole {code : Read α} {content : Bytes} {value : α} (h : Reads T code content value)
    (hr : (Reader.new content).WellFormed T) :
    call code (Reader.new content) = .ok (value, (Reader.new content).skip content.length) ∧
      finished ((Reader.new content).skip content.length) = .ok () := by
  have hunread : (Reader.new content).unread = content ++ [] := by
    rw [new_unread, List.append_nil]
  exact ⟨call_of_reads h hr hunread, (finished_eq_ok (Reader.skip_wellFormed hr hunread)).mpr
    (Reader.skip_unread hunread)⟩

end

/-! ## The loop -/

/-- A pass of the loop reads one field and goes on in front of the rest. -/
def ReadsField (T : Target) {σ : Type} (field : σ → Reader → Outcome Pkcs8Error (σ × Reader))
    (Field : σ → Bytes → σ → Prop) : Prop :=
  ∀ s t r r', r.WellFormed T → r.unread ≠ [] →
    (field s r = .ok (t, r') ↔
      ∃ p rest, Field s p t ∧ 0 < p.length ∧ r.unread = p ++ rest ∧ r' = r.skip p.length)

theorem Fields.nil_iff {σ : Type} {Field : σ → Bytes → σ → Prop}
    (hpos : ∀ s p t, Field s p t → 0 < p.length) {s u : σ} :
    Fields Field s [] u ↔ s = u := by
  constructor
  · intro h
    generalize hp : ([] : Bytes) = p at h
    cases h with
    | nil => rfl
    | cons head tail =>
      have hlength := hpos _ _ _ head
      have hnil := List.append_eq_nil_iff.mp hp.symm
      rw [hnil.1] at hlength
      simp at hlength
  · rintro rfl
    exact .nil s

theorem whileUnread_eq_ok {T : Target} {σ : Type}
    {field : σ → Reader → Outcome Pkcs8Error (σ × Reader)} {Field : σ → Bytes → σ → Prop}
    (hfield : ReadsField T field Field) (hpos : ∀ s p t, Field s p t → 0 < p.length)
    {fuel : Nat} {s u : σ} {r : Reader} (hr : r.WellFormed T)
    (hfuel : r.unread.length ≤ fuel) :
    whileUnread field fuel s r = .ok u ↔ Fields Field s r.unread u := by
  induction fuel generalizing s r with
  | zero =>
    have hnil : r.unread = [] := List.length_eq_zero_iff.mp (by omega)
    rw [whileUnread, if_pos (isEmpty_iff.mpr hnil), hnil, Fields.nil_iff hpos]
    simp
  | succ fuel ih =>
    unfold whileUnread
    by_cases hnil : r.unread = []
    · rw [if_pos (isEmpty_iff.mpr hnil), hnil, Fields.nil_iff hpos]
      simp
    rw [if_neg (by rwa [isEmpty_iff]), Outcome.bind_eq_ok]
    constructor
    · rintro ⟨⟨t, r'⟩, hstep, hrest⟩
      obtain ⟨p, rest, hhead, hlength, hunread, rfl⟩ := (hfield s t r r' hr hnil).mp hstep
      have hshort := congrArg List.length hunread
      rw [List.length_append] at hshort
      have hnext := Reader.skip_unread hunread
      have htail := (ih (Reader.skip_wellFormed hr hunread) (by rw [hnext]; omega)).mp hrest
      rw [hnext] at htail
      rw [hunread]
      exact .cons hhead htail
    · intro h
      generalize hp : r.unread = whole at h
      cases h with
      | nil => exact absurd hp hnil
      | @cons s t u p rest head tail =>
        have hlength := hpos _ _ _ head
        have hshort := congrArg List.length hp
        rw [List.length_append] at hshort
        have hnext := Reader.skip_unread hp
        have hstep := (hfield s t r (r.skip p.length) hr hnil).mpr
          ⟨p, rest, head, hlength, hp, rfl⟩
        refine ⟨(t, r.skip p.length), hstep, ?_⟩
        apply (ih (Reader.skip_wellFormed hr hp) (by rw [hnext]; omega)).mpr
        rwa [hnext]

/-! ## The fields -/

section

variable {T : Target}

theorem sec1Field_pos (curve : Option NamedCurve) (p : Bytes) (curve' : Option NamedCurve)
    (h : Sec1Field curve p curve') : 0 < p.length := by
  cases h with
  | parameters _ _ framed _ => exact framed.length_pos
  | publicKey _ framed => exact framed.length_pos

theorem attributesField_pos (s : Unit) (p : Bytes) (t : Unit) (h : AttributesField s p t) :
    0 < p.length := by
  cases h with
  | attributes framed => exact framed.length_pos

theorem readsField_attributes : ReadsField T (attributesField T) AttributesField := by
  intro s t r r' hr hne
  constructor
  · intro h
    obtain ⟨⟨tag, r₁⟩, hpeek, h⟩ := Outcome.bind_eq_ok.mp h
    simp only at h
    split at h
    · obtain ⟨⟨inner, r₂⟩, hread, h⟩ := Outcome.bind_eq_ok.mp h
      simp only [Outcome.ok.injEq, Prod.mk.injEq] at h
      obtain ⟨content, p, -, framed, hconsumes, -⟩ := readExplicit_ok hr (call_eq_ok.mp hread)
      refine ⟨p, r₂.unread, .attributes framed, framed.length_pos, hconsumes.unread_eq, ?_⟩
      rw [← h.2, skip_of_consumes hconsumes]
    · simp at h
  · rintro ⟨p, rest, h, hlength, hunread, rfl⟩
    cases h with
    | attributes framed =>
      have hread := call_of_reads (reads_readExplicit (T := T) (by decide) framed) hr hunread
      rw [attributesField, peekTag_of_tlv framed hunread]
      simp [hread]

theorem any_ne_eq_false {curve : Option NamedCurve} {parsed : NamedCurve}
    (h : ∀ c ∈ curve, c = parsed) : curve.any (· ≠ parsed) = false := by
  cases curve with
  | none => rfl
  | some c => simpa using h c rfl

theorem eq_of_any_ne {curve : Option NamedCurve} {parsed : NamedCurve}
    (h : ¬ curve.any (· ≠ parsed) = true) : ∀ c ∈ curve, c = parsed := by
  intro c hc
  rw [Option.mem_def] at hc
  rw [hc] at h
  simpa using h

theorem readsField_sec1 : ReadsField T (sec1Field T) Sec1Field := by
  intro curve curve' r r' hr hne
  constructor
  · intro h
    obtain ⟨⟨tag, r₁⟩, hpeek, h⟩ := Outcome.bind_eq_ok.mp h
    simp only at h
    split at h
    · -- The parameters, with one identifier in them.
      obtain ⟨⟨params, r₂⟩, hread, h⟩ := Outcome.bind_eq_ok.mp h
      obtain ⟨⟨oid, params'⟩, hoid, h⟩ := Outcome.bind_eq_ok.mp h
      obtain ⟨⟨⟩, hfinish, h⟩ := Outcome.bind_eq_ok.mp h
      obtain ⟨parsed, hcurve, hlast⟩ := Outcome.bind_eq_ok.mp h
      simp only at hread hoid hfinish hlast
      split at hlast
      · simp at hlast
      rename_i hsame
      simp only [Outcome.ok.injEq, Prod.mk.injEq] at hlast
      obtain ⟨content, p, rfl, framed, hconsumes, -⟩ :=
        readExplicit_ok hr (call_eq_ok.mp hread)
      have hinner := new_wellFormed_of_tlv hr framed hconsumes.unread_eq
      obtain ⟨-, value, hoidTlv, hvalue, hwell⟩ := readOid_ok hinner (call_eq_ok.mp hoid)
      have hwhole := hvalue.unread_eq
      rw [(finished_eq_ok hwell).mp hfinish, List.append_nil, new_unread] at hwhole
      subst hwhole
      have hc := eq_of_any_ne hsame
      refine ⟨p, r₂.unread, ?_, framed.length_pos, hconsumes.unread_eq, ?_⟩
      · rw [← hlast.1]
        exact .parameters hcurve hoidTlv framed hc
      · rw [← hlast.2, skip_of_consumes hconsumes]
    split at h
    · obtain ⟨⟨pub, r₂⟩, hread, h⟩ := Outcome.bind_eq_ok.mp h
      obtain ⟨⟨bits, pub'⟩, hbits, h⟩ := Outcome.bind_eq_ok.mp h
      obtain ⟨⟨⟩, hfinish, hlast⟩ := Outcome.bind_eq_ok.mp h
      simp only [Outcome.ok.injEq, Prod.mk.injEq] at hread hbits hfinish hlast
      obtain ⟨content, p, rfl, framed, hconsumes, -⟩ :=
        readExplicit_ok hr (call_eq_ok.mp hread)
      have hinner := new_wellFormed_of_tlv hr framed hconsumes.unread_eq
      obtain ⟨value, hbitsTlv, hvalue, hwell⟩ := readBitString_ok hinner (call_eq_ok.mp hbits)
      have hwhole := hvalue.unread_eq
      rw [(finished_eq_ok hwell).mp hfinish, List.append_nil, new_unread] at hwhole
      subst hwhole
      refine ⟨p, r₂.unread, ?_, framed.length_pos, hconsumes.unread_eq, ?_⟩
      · rw [← hlast.1]
        exact .publicKey hbitsTlv framed
      · rw [← hlast.2, skip_of_consumes hconsumes]
    · simp at h
  · rintro ⟨p, rest, h, hlength, hunread, rfl⟩
    cases h with
    | parameters named oid_framed framed same =>
      have hread := call_of_reads (reads_readExplicit (T := T) (by decide) framed) hr hunread
      have hinner := new_wellFormed_of_tlv hr framed hunread
      obtain ⟨hoid, hfinish⟩ := call_whole
        (reads_readOid (curveFromOid_ne_nil named) oid_framed) hinner
      have hsame := any_ne_eq_false same
      rw [sec1Field, peekTag_of_tlv framed hunread]
      simp only [Outcome.ok_bind, if_pos, hread, hoid, hfinish, named, hsame]
      rfl
    | publicKey bits_framed framed =>
      have hread := call_of_reads (reads_readExplicit (T := T) (by decide) framed) hr hunread
      have hinner := new_wellFormed_of_tlv hr framed hunread
      obtain ⟨hbits, hfinish⟩ := call_whole (reads_readBitString bits_framed) hinner
      rw [sec1Field, peekTag_of_tlv framed hunread]
      simp [hread, hbits, hfinish]

end

/-! ## The whole inputs -/

section

variable {T : Target}

theorem sequence_eq_ok {der : Bytes} (hder : (Reader.new der).WellFormed T) {seq outer : Reader} :
    (call (readSequence T) (Reader.new der) = .ok (seq, outer) ∧ finished outer = .ok ()) ↔
      ∃ content, Tlv tagSequence content der ∧ seq = Reader.new content ∧
        outer = (Reader.new der).skip der.length := by
  constructor
  · rintro ⟨hread, hfinish⟩
    obtain ⟨content, p, rfl, framed, hconsumes, hwell⟩ :=
      readSequence_ok hder (call_eq_ok.mp hread)
    have hwhole := hconsumes.unread_eq
    rw [(finished_eq_ok hwell).mp hfinish, List.append_nil, new_unread] at hwhole
    subst hwhole
    exact ⟨content, framed, rfl, skip_of_consumes hconsumes⟩
  · rintro ⟨content, framed, rfl, rfl⟩
    exact call_whole (reads_readSequence framed) hder

theorem remaining_eq {r : Reader} : r.unread.length = r.remaining := by
  rw [Reader.unread, List.length_drop, Reader.remaining]

theorem parseSec1_eq_ok {der : Bytes} (hder : (Reader.new der).WellFormed T)
    {curve : Option NamedCurve} {scalar : Bytes} :
    parseSec1 T der = .ok (curve, scalar) ↔ EcPrivateKeyInfo curve scalar der := by
  constructor
  · intro h
    obtain ⟨⟨seq, outer⟩, hread, h₁⟩ := Outcome.bind_eq_ok.mp h
    obtain ⟨⟨⟩, hfinish, h₂⟩ := Outcome.bind_eq_ok.mp h₁
    obtain ⟨content, framed, rfl, -⟩ := (sequence_eq_ok hder).mp ⟨hread, hfinish⟩
    have hseq := new_wellFormed_of_tlv hder framed (List.append_nil der).symm
    obtain ⟨⟨version, r₁⟩, hversion, h₃⟩ := Outcome.bind_eq_ok.mp h₂
    simp only at hversion h₃
    split at h₃
    · simp at h₃
    rename_i hone
    rw [not_not] at hone
    subst hone
    obtain ⟨⟨value, r₂⟩, hscalar, h₄⟩ := Outcome.bind_eq_ok.mp h₃
    obtain ⟨last, hfields, hlast⟩ := Outcome.bind_eq_ok.mp h₄
    simp only [Outcome.ok.injEq, Prod.mk.injEq] at hscalar hfields hlast
    obtain ⟨rfl, rfl⟩ := hlast
    obtain ⟨v, hv, hc₁, hw₁⟩ := readInteger_framed hseq (call_eq_ok.mp hversion)
    obtain ⟨k, hk, hc₂, hw₂⟩ := readExpected_ok hw₁ (call_eq_ok.mp hscalar)
    have hrest := (whileUnread_eq_ok readsField_sec1 sec1Field_pos hw₂
      (by rw [remaining_eq])).mp hfields
    refine ⟨v, k, r₂.unread, hv, hk, hrest, ?_⟩
    have hunread := (hc₁.trans hc₂).unread_eq
    rw [new_unread] at hunread
    rwa [← hunread]
  · rintro ⟨version, key, fields, hversion, hkey, hfields, framed⟩
    obtain ⟨hread, hfinish⟩ := (sequence_eq_ok hder).mpr ⟨_, framed, rfl, rfl⟩
    have hseq := new_wellFormed_of_tlv hder framed (List.append_nil der).symm
    have hunread : (Reader.new (version ++ key ++ fields)).unread =
        version ++ (key ++ fields) := by
      rw [new_unread, List.append_assoc]
    have hv := call_of_reads (reads_readInteger_one hversion) hseq hunread
    have hw₁ := Reader.skip_wellFormed hseq hunread
    have hu₁ := Reader.skip_unread hunread
    have hk := call_of_reads (reads_readOctetString hkey) hw₁ hu₁
    have hw₂ := Reader.skip_wellFormed hw₁ hu₁
    have hu₂ := Reader.skip_unread hu₁
    have hloop := (whileUnread_eq_ok readsField_sec1 sec1Field_pos hw₂ (le_of_eq remaining_eq)).mpr
      (by rwa [hu₂])
    simp only [parseSec1, hread, hfinish, hv, hk, hloop, Outcome.ok_bind, ne_eq,
      not_true_eq_false, if_false]

theorem decodeEcPkcs8Der_eq_ok (S : Suite) {der : Bytes} (hder : (Reader.new der).WellFormed T)
    {key : EcPrivateKey S} : decodeEcPkcs8Der T S der = .ok key ↔
      ∃ curve scalar, PrivateKeyInfo curve scalar der ∧ buildEcKey S curve scalar = .ok key := by
  constructor
  · intro h
    obtain ⟨⟨seq, outer⟩, hread, h₁⟩ := Outcome.bind_eq_ok.mp h
    obtain ⟨⟨⟩, hfinish, h₂⟩ := Outcome.bind_eq_ok.mp h₁
    obtain ⟨content, framed, rfl, -⟩ := (sequence_eq_ok hder).mp ⟨hread, hfinish⟩
    have hseq := new_wellFormed_of_tlv hder framed (List.append_nil der).symm
    obtain ⟨⟨version, r₁⟩, hversion, h₃⟩ := Outcome.bind_eq_ok.mp h₂
    simp only at hversion h₃
    split at h₃
    · simp at h₃
    rename_i hzero
    rw [not_not] at hzero
    subst hzero
    obtain ⟨v, hv, hc₁, hw₁⟩ := readInteger_framed hseq (call_eq_ok.mp hversion)
    -- The algorithm and the curve it names.
    obtain ⟨⟨algorithm, r₂⟩, halgorithm, h₄⟩ := Outcome.bind_eq_ok.mp h₃
    obtain ⟨inside, a, rfl, ha, hc₂, hw₂⟩ := readSequence_ok hw₁ (call_eq_ok.mp halgorithm)
    have hinside := new_wellFormed_of_tlv hw₁ ha hc₂.unread_eq
    obtain ⟨⟨algorithmOid, r₃⟩, halgorithmOid, h₅⟩ := Outcome.bind_eq_ok.mp h₄
    simp only at halgorithmOid h₅
    split at h₅
    · simp at h₅
    rename_i hoid
    rw [not_not] at hoid
    subst hoid
    obtain ⟨-, o₁, ho₁, hc₃, hw₃⟩ := readOid_ok hinside (call_eq_ok.mp halgorithmOid)
    obtain ⟨⟨curveOid, r₄⟩, hcurveOid, h₆⟩ := Outcome.bind_eq_ok.mp h₅
    obtain ⟨-, o₂, ho₂, hc₄, hw₄⟩ := readOid_ok hw₃ (call_eq_ok.mp hcurveOid)
    obtain ⟨⟨⟩, hend, h₇⟩ := Outcome.bind_eq_ok.mp h₆
    have hparts := (hc₃.trans hc₄).unread_eq
    rw [(finished_eq_ok hw₄).mp hend, List.append_nil, new_unread] at hparts
    subst hparts
    obtain ⟨curve, hcurve, h₈⟩ := Outcome.bind_eq_ok.mp h₇
    -- The key and the attributes behind it.
    obtain ⟨⟨privateKey, r₅⟩, hkey, h₉⟩ := Outcome.bind_eq_ok.mp h₈
    obtain ⟨k, hk, hc₅, hw₅⟩ := readExpected_ok hw₂ (call_eq_ok.mp hkey)
    obtain ⟨⟨⟩, hattributes, h₁₀⟩ := Outcome.bind_eq_ok.mp h₉
    have hrest := (whileUnread_eq_ok readsField_attributes attributesField_pos hw₅
      (by rw [remaining_eq])).mp hattributes
    obtain ⟨⟨inner, scalar⟩, hsec1, h₁₁⟩ := Outcome.bind_eq_ok.mp h₁₀
    have hprivate := new_wellFormed_of_tlv hw₂ hk hc₅.unread_eq
    have hinfo := (parseSec1_eq_ok hprivate).mp hsec1
    simp only at h₁₁
    split at h₁₁
    · simp at h₁₁
    rename_i hsame
    have hunread := ((hc₁.trans hc₂).trans hc₅).unread_eq
    rw [new_unread] at hunread
    refine ⟨curve, scalar, ⟨v, o₁, o₂, curveOid, a, privateKey, k, r₅.unread, inner, hv, ho₁,
      hcurve, ho₂, ha, hinfo, eq_of_any_ne hsame, hk, hrest, ?_⟩, h₁₁⟩
    rwa [← hunread]
  · rintro ⟨curve, scalar, ⟨version, algorithmOid, curveOid, curveOidValue, algorithm, privateKey,
      wrapped, attributes, inner, hversion, halgorithmOid, hcurve, hcurveOid, halgorithm, hinfo,
      hsame, hwrapped, hattributes, framed⟩, hbuild⟩
    obtain ⟨hread, hfinish⟩ := (sequence_eq_ok hder).mpr ⟨_, framed, rfl, rfl⟩
    have hseq := new_wellFormed_of_tlv hder framed (List.append_nil der).symm
    have hunread : (Reader.new (version ++ algorithm ++ wrapped ++ attributes)).unread =
        version ++ (algorithm ++ (wrapped ++ attributes)) := by
      rw [new_unread, List.append_assoc, List.append_assoc]
    have hv := call_of_reads (reads_readInteger_one hversion) hseq hunread
    have hw₁ := Reader.skip_wellFormed hseq hunread
    have hu₁ := Reader.skip_unread hunread
    have ha := call_of_reads (reads_readSequence halgorithm) hw₁ hu₁
    have hw₂ := Reader.skip_wellFormed hw₁ hu₁
    have hu₂ := Reader.skip_unread hu₁
    have hinside := new_wellFormed_of_tlv hw₁ halgorithm hu₁
    have hoids : (Reader.new (algorithmOid ++ curveOid)).unread = algorithmOid ++ curveOid :=
      new_unread _
    have ho₁ := call_of_reads (reads_readOid (by decide) halgorithmOid) hinside hoids
    have hw₃ := Reader.skip_wellFormed hinside hoids
    have hu₃ := (Reader.skip_unread hoids).trans (List.append_nil curveOid).symm
    have ho₂ := call_of_reads (reads_readOid (curveFromOid_ne_nil hcurve) hcurveOid) hw₃ hu₃
    have hend := (finished_eq_ok (Reader.skip_wellFormed hw₃ hu₃)).mpr (Reader.skip_unread hu₃)
    have hk := call_of_reads (reads_readOctetString hwrapped) hw₂ hu₂
    have hw₅ := Reader.skip_wellFormed hw₂ hu₂
    have hu₅ := Reader.skip_unread hu₂
    have hloop := (whileUnread_eq_ok readsField_attributes attributesField_pos hw₅
      (le_of_eq remaining_eq)).mpr (by rwa [hu₅])
    have hsec1 := (parseSec1_eq_ok (new_wellFormed_of_tlv hw₂ hwrapped hu₂)).mpr hinfo
    have hany := any_ne_eq_false hsame
    simp only [decodeEcPkcs8Der, hread, hfinish, hv, ha, ho₁, ho₂, hend, hcurve, hk, hloop, hsec1,
      Outcome.ok_bind, ne_eq, not_true_eq_false, if_false, hbuild]
    rw [if_neg (by simpa using hany)]

end

/-! ## The template -/

def template (priv pub : Bytes) : Bytes :=
  [0x30, 0x81, 0x87, 0x02, 0x01, 0x00, 0x30, 0x13, 0x06, 0x07] ++ EC_PUBLIC_KEY_OID ++
    [0x06, 0x08] ++ SECP256R1_OID ++
    [0x04, 0x6d, 0x30, 0x6b, 0x02, 0x01, 0x01, 0x04, 0x20] ++ priv ++
    [0xa1, 0x44, 0x03, 0x42, 0x00] ++ pub

theorem template_length {priv pub : Bytes} (hpriv : priv.length = 32) (hpub : pub.length = 65) :
    (template priv pub).length = PKCS8_DER_LEN := by
  simp [template, EC_PUBLIC_KEY_OID, SECP256R1_OID, PKCS8_DER_LEN, hpriv, hpub]

theorem template_info {priv pub : Bytes} (hpriv : priv.length = 32) (hpub : pub.length = 65) :
    PrivateKeyInfo .p256 priv (template priv pub) := by
  have hkey : Tlv tagOctetString priv (0x04 :: 0x20 :: priv) :=
    ⟨[0x20], by rw [hpriv]; exact .short 32 (by decide), rfl⟩
  have hbits : Tlv tagBitString (0 :: pub) (0x03 :: 0x42 :: 0x00 :: pub) :=
    ⟨[0x42], by rw [List.length_cons, hpub]; exact .short 66 (by decide), rfl⟩
  have hpublic : Tlv 0xa1 (0x03 :: 0x42 :: 0x00 :: pub)
      (0xa1 :: 0x44 :: 0x03 :: 0x42 :: 0x00 :: pub) :=
    ⟨[0x44], by simp only [List.length_cons, hpub]; exact .short 68 (by decide), rfl⟩
  have hfields : Fields Sec1Field none (0xa1 :: 0x44 :: 0x03 :: 0x42 :: 0x00 :: pub) none := by
    have hcons := Fields.cons (@Sec1Field.publicKey none _ _ _ hbits hpublic) (.nil none)
    rwa [List.append_nil] at hcons
  have hsec1 : EcPrivateKeyInfo none priv ([0x30, 0x6b, 0x02, 0x01, 0x01] ++
      (0x04 :: 0x20 :: priv) ++ (0xa1 :: 0x44 :: 0x03 :: 0x42 :: 0x00 :: pub)) := by
    refine ⟨[0x02, 0x01, 0x01], _, _, .short (by decide), hkey, hfields, [0x6b], ?_, ?_⟩
    · simp only [List.length_append, List.length_cons, List.length_nil, hpriv, hpub]
      exact .short 107 (by decide)
    · simp [tagSequence]
  refine ⟨[0x02, 0x01, 0x00], [0x06, 0x07] ++ EC_PUBLIC_KEY_OID, [0x06, 0x08] ++ SECP256R1_OID,
    OID_SECP256R1, [0x30, 0x13, 0x06, 0x07] ++ EC_PUBLIC_KEY_OID ++ [0x06, 0x08] ++ SECP256R1_OID,
    _, [0x04, 0x6d] ++ _, [], none, .short (by decide), .short (by decide), rfl,
    .short (by decide), .short (by decide), hsec1, by simp, ⟨[0x6d], ?_, rfl⟩, .nil (),
    [0x81, 0x87], ?_, ?_⟩
  · simp only [List.length_append, List.length_cons, List.length_nil, hpriv, hpub]
    exact .short 109 (by decide)
  · simp only [List.length_append, List.length_cons, List.length_nil, EC_PUBLIC_KEY_OID,
      SECP256R1_OID, hpriv, hpub]
    exact .long [0x87] (by decide) (by decide)
  · simp [template, tagSequence]

theorem FixedOctets.Match.drop_eq {f : FixedOctets} {der : Bytes} (h : f.Match der) :
    der.drop f.offset = f.octets ++ der.drop (f.offset + f.octets.length) := by
  rw [FixedOctets.Match] at h
  conv_lhs => rw [← List.take_append_drop f.octets.length (der.drop f.offset)]
  rw [h, List.drop_drop]

theorem compareAll_eq_ok {der : Bytes} {fixed : List FixedOctets} :
    compareAll der fixed = .ok () ↔ ∀ f ∈ fixed, f.Match der := by
  induction fixed with
  | nil => simp [compareAll]
  | cons f rest ih =>
    unfold compareAll
    split
    · rename_i hmatch
      simp [ih, hmatch]
    · rename_i hmismatch
      simp [hmismatch]

def slice (der : Bytes) (offset count : Nat) : Bytes := (der.drop offset).take count

theorem template_of_validate {der : Bytes} (h : validateFixedPrefix der = .ok ()) :
    der.length = PKCS8_DER_LEN ∧
      der = template (slice der PRIVATE_KEY_OFFSET 32) (slice der PUBLIC_KEY_OFFSET 65) := by
  unfold validateFixedPrefix at h
  split at h
  · simp at h
  rename_i hlength
  rw [not_not] at hlength
  refine ⟨hlength, ?_⟩
  have hall := compareAll_eq_ok.mp h
  simp only [fixedPrefix, List.forall_mem_cons, List.not_mem_nil, false_imp_iff, implies_true,
    and_true] at hall
  obtain ⟨h0, h3, h6, h8, h17, h27, h29, h31, h34, h68, h70, h73⟩ := hall
  have e0 := h0.drop_eq
  have e3 := h3.drop_eq
  have e6 := h6.drop_eq
  have e8 := h8.drop_eq
  have e17 := h17.drop_eq
  have e27 := h27.drop_eq
  have e29 := h29.drop_eq
  have e31 := h31.drop_eq
  have e34 := h34.drop_eq
  have e68 := h68.drop_eq
  have e70 := h70.drop_eq
  simp only [List.length_cons, List.length_nil, List.length_append, EC_PUBLIC_KEY_OID,
    SECP256R1_OID, List.drop_zero, Nat.zero_add, Nat.reduceAdd]
    at e0 e3 e6 e8 e17 e27 e29 e31 e34 e68 e70
  have hpriv : der.drop 36 = slice der PRIVATE_KEY_OFFSET 32 ++ der.drop 68 := by
    conv_lhs => rw [← List.take_append_drop 32 (der.drop 36)]
    rw [List.drop_drop]
    rfl
  have hpub : der.drop 73 = slice der PUBLIC_KEY_OFFSET 65 := by
    rw [slice, PUBLIC_KEY_OFFSET, List.take_of_length_le]
    rw [List.length_drop, hlength]
    decide
  generalize slice der PRIVATE_KEY_OFFSET 32 = priv at hpriv ⊢
  generalize slice der PUBLIC_KEY_OFFSET 65 = pub at hpub ⊢
  rw [e0, e3, e6, e8, e17, e27, e29, e31, e34, hpriv, e68, e70, hpub]
  simp [template, EC_PUBLIC_KEY_OID, SECP256R1_OID]

section

variable {S : Suite}

theorem secretKeyOf_ok {C : PCurves.Curve} {scalar : Bytes} (h : scalar.length = C.FIELD_BYTES)
    {key : SecretKey C} (hkey : SecretKey.fromBytes ⟨scalar, h⟩ = .ok key) :
    secretKeyOf C scalar = .ok key := by
  unfold secretKeyOf
  rw [dif_pos h, hkey]

theorem decodeP256Pkcs8Der_eq_ok {der : Bytes} {key : SecretKey S.p256}
    (h : decodeP256Pkcs8Der S der = .ok key) : ∃ priv pub, priv.length = 32 ∧ pub.length = 65 ∧
      der = template priv pub ∧ secretKeyOf S.p256 priv = .ok key := by
  obtain ⟨⟨⟩, hvalid, hrest⟩ := Outcome.bind_eq_ok.mp h
  obtain ⟨hlength, hder⟩ := template_of_validate hvalid
  simp only at hrest
  split at hrest
  · rename_i hpriv
    split at hrest
    · simp at hrest
    · rename_i found hfound
      split at hrest
      · simp at hrest
      · obtain rfl := Outcome.ok.inj hrest
        refine ⟨_, _, hpriv, ?_, hder, secretKeyOf_ok (C := S.p256) hpriv hfound⟩
        rw [slice, List.length_take, List.length_drop, hlength]
        decide
  · simp at hrest

theorem encode_eq_template (key : SecretKey S.p256) :
    encodeP256Pkcs8Der S key = template key.toBytes.octets key.publicKey.toBytes.octets := by
  have hpriv : key.toBytes.octets.length = 32 := key.toBytes.length_eq
  have hpub : key.publicKey.toBytes.octets.length = 65 := key.publicKey.toBytes.length_eq
  unfold encodeP256Pkcs8Der
  simp only [writeAt, hpriv, hpub]
  generalize key.toBytes.octets = priv at hpriv ⊢
  generalize key.publicKey.toBytes.octets = pub at hpub ⊢
  simp [TEMPLATE, template, PUBLIC_KEY_OFFSET, PRIVATE_KEY_OFFSET, EC_PUBLIC_KEY_OID,
    SECP256R1_OID]

theorem template_drop {priv pub : Bytes} (hpriv : priv.length = 32) :
    (template priv pub).drop 36 = priv ++ ([0xa1, 0x44, 0x03, 0x42, 0x00] ++ pub) ∧
      (template priv pub).drop 68 = [0xa1, 0x44, 0x03, 0x42, 0x00] ++ pub ∧
      (template priv pub).drop 73 = pub := by
  have h36 : (template priv pub).drop 36 = priv ++ ([0xa1, 0x44, 0x03, 0x42, 0x00] ++ pub) := by
    simp [template, EC_PUBLIC_KEY_OID, SECP256R1_OID]
  have h68 : (template priv pub).drop 68 = [0xa1, 0x44, 0x03, 0x42, 0x00] ++ pub := by
    have hsplit : (template priv pub).drop 68 = ((template priv pub).drop 36).drop 32 := by
      rw [List.drop_drop]
    rw [hsplit, h36, List.drop_left' hpriv]
  have h73 : (template priv pub).drop 73 = pub := by
    have hsplit : (template priv pub).drop 73 = ((template priv pub).drop 68).drop 5 := by
      rw [List.drop_drop]
    rw [hsplit, h68]
    rfl
  exact ⟨h36, h68, h73⟩

theorem validate_template {priv pub : Bytes} (hpriv : priv.length = 32) (hpub : pub.length = 65)
    (hhead : pub.take 1 = [0x04]) : validateFixedPrefix (template priv pub) = .ok () := by
  obtain ⟨-, h68, h73⟩ := @template_drop _ pub hpriv
  have h70 : (template priv pub).drop 70 = [0x03, 0x42, 0x00] ++ pub := by
    have hsplit : (template priv pub).drop 70 = ((template priv pub).drop 68).drop 2 := by
      rw [List.drop_drop]
    rw [hsplit, h68]
    rfl
  unfold validateFixedPrefix
  rw [if_neg (not_not.mpr (template_length hpriv hpub)), compareAll_eq_ok]
  simp only [fixedPrefix, List.forall_mem_cons, List.not_mem_nil, false_imp_iff, implies_true,
    and_true, FixedOctets.Match, h68, h70, h73]
  refine ⟨?_, ?_, ?_, ?_, ?_, ?_, ?_, ?_, ?_, rfl, rfl, hhead⟩ <;>
    simp [template, EC_PUBLIC_KEY_OID, SECP256R1_OID]

theorem decodeP256_encodeP256 (key : SecretKey S.p256) :
    decodeP256Pkcs8Der S (encodeP256Pkcs8Der S key) = .ok key := by
  have hpriv : key.toBytes.octets.length = 32 := key.toBytes.length_eq
  have hpub : key.publicKey.toBytes.octets.length = 65 := key.publicKey.toBytes.length_eq
  have hhead : key.publicKey.toBytes.octets.take 1 = [0x04] := rfl
  obtain ⟨h36, -, h73⟩ := @template_drop _ key.publicKey.toBytes.octets hpriv
  have htake : ((template key.toBytes.octets key.publicKey.toBytes.octets).drop
      PRIVATE_KEY_OFFSET).take 32 = key.toBytes.octets := by
    rw [PRIVATE_KEY_OFFSET, h36, List.take_left' hpriv]
  have hpoint : ((template key.toBytes.octets key.publicKey.toBytes.octets).drop
      PUBLIC_KEY_OFFSET).take 65 = key.publicKey.toBytes.octets := by
    rw [PUBLIC_KEY_OFFSET, h73, List.take_of_length_le (le_of_eq hpub)]
  have hbytes : SecretKey.fromBytes (C := S.p256) ⟨key.toBytes.octets, hpriv⟩ = .ok key :=
    SecretKey.fromBytes_toBytes key
  rw [encode_eq_template]
  unfold decodeP256Pkcs8Der
  rw [validate_template hpriv hpub hhead]
  simp only [Outcome.ok_bind, htake, hpoint]
  rw [dif_pos hpriv, hbytes]
  simp

end

def EcPrivateKey.toBytes {S : Suite} : EcPrivateKey S → Bytes
  | .p256 key => key.toBytes.octets
  | .p384 key => key.toBytes.octets

theorem secretKeyOf_toBytes {C : PCurves.Curve} {scalar : Bytes} {key : SecretKey C}
    (h : secretKeyOf C scalar = .ok key) : key.toBytes.octets = scalar := by
  unfold secretKeyOf at h
  split at h
  · rename_i hlength
    split at h
    · simp at h
    · rename_i found hfound
      obtain rfl := Outcome.ok.inj h
      rw [SecretKey.toBytes_fromBytes hfound]
  · simp at h

theorem buildEcKey_ok {S : Suite} {curve : NamedCurve} {scalar : Bytes} {key : EcPrivateKey S}
    (h : buildEcKey S curve scalar = .ok key) : key.curve = curve ∧ key.toBytes = scalar := by
  cases curve with
  | p256 =>
    obtain ⟨found, hfound, hkey⟩ := Outcome.bind_eq_ok.mp h
    obtain rfl := Outcome.ok.inj hkey
    exact ⟨rfl, secretKeyOf_toBytes hfound⟩
  | p384 =>
    obtain ⟨found, hfound, hkey⟩ := Outcome.bind_eq_ok.mp h
    obtain rfl := Outcome.ok.inj hkey
    exact ⟨rfl, secretKeyOf_toBytes hfound⟩

theorem small_wellFormed (T : Target) {der : Bytes} (h : der.length = PKCS8_DER_LEN) :
    (Reader.new der).WellFormed T := by
  have hwide : 2 ^ 31 ≤ 2 ^ (T.usizeBits - 1) :=
    Nat.pow_le_pow_right (by decide) (Nat.le_sub_one_of_lt (lt_of_lt_of_le (by decide) T.wide))
  apply Reader.new_wellFormed
  rw [h, PKCS8_DER_LEN]
  exact lt_of_lt_of_le (by decide) hwide

/-- The template decoder undoes the encoder, the generic decoder takes whatever the template
decoder takes, with the same key, and what it takes are nested values with nothing behind them
whose curve the algorithm names. -/
theorem private_key_decoders_agree (T : Target) (S : Suite) :
    (∀ key : SecretKey S.p256,
      decodeP256Pkcs8Der S (encodeP256Pkcs8Der S key) = .ok key ∧
      decodeEcPkcs8Der T S (encodeP256Pkcs8Der S key) = .ok (.p256 key)) ∧
    (∀ der (key : SecretKey S.p256), decodeP256Pkcs8Der S der = .ok key →
      decodeEcPkcs8Der T S der = .ok (.p256 key)) ∧
    ∀ der (key : EcPrivateKey S), (Reader.new der).WellFormed T →
      decodeEcPkcs8Der T S der = .ok key → PrivateKeyInfo key.curve key.toBytes der := by
  have hagree : ∀ der (key : SecretKey S.p256), decodeP256Pkcs8Der S der = .ok key →
      decodeEcPkcs8Der T S der = .ok (.p256 key) := by
    intro der key h
    obtain ⟨priv, pub, hpriv, hpub, rfl, hkey⟩ := decodeP256Pkcs8Der_eq_ok h
    have hder := small_wellFormed T (template_length hpriv hpub)
    apply (decodeEcPkcs8Der_eq_ok S hder).mpr
    refine ⟨.p256, priv, template_info hpriv hpub, ?_⟩
    simp only [buildEcKey, hkey, Outcome.ok_bind]
  refine ⟨fun key => ⟨decodeP256_encodeP256 key, hagree _ key (decodeP256_encodeP256 key)⟩,
    hagree, ?_⟩
  intro der key hder h
  obtain ⟨curve, scalar, hinfo, hbuild⟩ := (decodeEcPkcs8Der_eq_ok S hder).mp h
  obtain ⟨rfl, rfl⟩ := buildEcKey_ok hbuild
  exact hinfo

end Stdx.Encoding.Pkcs8
