import Mathlib
import Stdx.Postgresql.ValueCodec

/-!
# Parameters of a query

The entries of the values that `encode_params` frames, and what they decode as.
-/

namespace Stdx.Postgresql

open Stdx.Foundation Stdx.Foundation.Outcome Stdx.Time

/-- The framed values, told apart by their lengths. -/
def splitValues (count : Nat) (values : Bytes) : Option (List (Option Bytes)) :=
  match Frontend.readMany Frontend.readValue count values with
  | some (entries, []) => some entries
  | _ => none

def SqlType.isNone : (t : SqlType) → t.Value → Bool
  | option _, value => Option.isNone value
  | vec _, _ | int2, _ | int4, _ | int8, _ | float4, _ | float8, _ | bool, _ | text, _
  | bytea, _ | uuid, _ | dateTime, _ | json _ _, _ | inet, _ | interval, _ => false

/-- The entry of a parameter, and its identifier, give the parameter back. -/
structure Param.DecodedBy (param : Param) (oid : Oid) (entry : Option Bytes) : Prop where
  accepts : param.type.impl.accepts oid = true
  null : entry = none ↔ param.type.isNone param.value = true
  value : (match entry with
    | none => param.type.impl.fromSqlNull
    | some octets => param.type.impl.fromSql oid octets) =
      .ok (param.type.rounded param.value)

theorem SqlType.encode_null {t : SqlType} (h : t.Supported) (value : t.Value) :
    (t.toSql.encode value).result = .ok .null ↔ t.isNone value = true := by
  have hoption : ∀ {u : SqlType}, u.toSql.NeverNull → ∀ value : Option u.Value,
      ((ToSql.option u.toSql).encode value).result = .ok .null ↔ value.isNone = true := by
    intro u hnull value
    cases value with
    | none => exact ⟨fun _ => rfl, fun _ => rfl⟩
    | some value => exact ⟨fun hresult => absurd hresult (hnull value), nofun⟩
  cases h with
  | scalar h =>
    have hnone : t.isNone value = false := by
      cases t with
      | option t => exact h.elim
      | _ => rfl
    rw [hnone]
    exact ⟨fun hresult => absurd hresult (scalar_neverNull h value), nofun⟩
  | nullable h => exact hoption (scalar_neverNull h) value
  | array h => exact ⟨fun hresult => absurd hresult (vec_neverNull value), nofun⟩
  | arrayNullable h => exact ⟨fun hresult => absurd hresult (vec_neverNull value), nofun⟩
  | @nullableArray u h => exact @hoption (.vec u) vec_neverNull value
  | @nullableArrayNullable u h => exact @hoption (.vec (.option u)) vec_neverNull value

theorem Param.decodedBy {param : Param} (h : param.type.Supported)
    (hjson : param.type.JsonLawful param.value) (hfits : param.encode.Fits) :
    param.DecodedBy param.oid param.encode.field := by
  have hcodec := SqlType.supported_codec h
  have hnull := SqlType.encode_null h param.value
  refine ⟨hcodec.accepts, ?_, ?_⟩
  · obtain hresult | ⟨hresult, -⟩ := hfits
    · rw [Encoding.field, hresult]
      exact ⟨fun _ => hnull.mp hresult, fun _ => rfl⟩
    · rw [Encoding.field, hresult]
      refine ⟨fun hsome => ?_, fun hnone => ?_⟩
      · cases hsome
      have hother := hnull.mpr hnone
      change param.encode.result = _ at hother
      rw [hresult] at hother
      cases hother
  · obtain hresult | ⟨hresult, -⟩ := hfits
    · rw [Encoding.field, hresult]
      exact hcodec.fromSqlNull param.value hresult
    · rw [Encoding.field, hresult]
      exact hcodec.fromSql param.value hjson hresult

theorem encodeParams_octets {params : List Param} {encoded : EncodedParams}
    (h : encodeParams params = .ok encoded) :
    (∀ param ∈ params, param.encode.Fits) ∧ encoded.oids = params.map Param.oid ∧
      encoded.values = fieldsOctets (params.map fun param => param.encode.field) := by
  induction params generalizing encoded with
  | nil =>
    cases h
    exact ⟨nofun, rfl, rfl⟩
  | cons param params ih =>
    rw [encodeParams] at h
    obtain ⟨hfits, -⟩ | ⟨-, octets, err, hframed⟩ :=
      framed_cases "parameter is larger than 2 GiB" param.encode
    · obtain ⟨isNull, hframed⟩ := framed_field "parameter is larger than 2 GiB" _ hfits
      rw [hframed] at h
      rcases hrest : encodeParams params with err | rest
      · rw [hrest] at h
        cases h
      · rw [hrest] at h
        cases h
        obtain ⟨hall, hoids, hvalues⟩ := ih hrest
        refine ⟨?_, ?_, ?_⟩
        · exact List.forall_mem_cons.mpr ⟨hfits, hall⟩
        · simp only [hoids, List.map_cons]
        · simp only [hvalues, List.map_cons, fieldsOctets_cons]
    · rw [hframed] at h
      cases h

theorem splitValues_fields {fields : List (Option Bytes)}
    (h : ∀ field ∈ fields, ∀ octets, field = some octets → octets.length < 2 ^ 31) :
    splitValues fields.length (fieldsOctets fields) = some fields := by
  have hread := Frontend.readMany_append
    (fun field hmem rest => Frontend.readValue_append (h field hmem) rest) []
  rw [List.append_nil] at hread
  change Frontend.readMany Frontend.readValue fields.length (fieldsOctets fields) = _ at hread
  rw [splitValues, hread]

/-- Parameters come back from their encoding, and no octets make the decoders panic or size
a vector beyond what the octets hold. -/
theorem sqlValue_codec :
    (∀ params encoded,
      (∀ param ∈ params, param.type.Supported ∧ param.type.JsonLawful param.value) →
      encodeParams params = .ok encoded →
      ∃ entries, splitValues params.length encoded.values = some entries ∧
        entries.length = params.length ∧ encoded.oids.length = params.length ∧
        List.Forall₂ (fun param entry => param.DecodedBy entry.1 entry.2) params
          (encoded.oids.zip entries)) ∧
    (∀ (t : SqlType) oid buf, t.impl.fromSql oid buf ≠ .panic) ∧
    ∀ (t : SqlType) buf zone, FromSql.decodeArray t.impl buf zone ≠ .panic ∧
      ∀ elementOid count, FromSql.arrayHeader t.impl.accepts buf = .ok (some (elementOid, count)) →
        20 + 4 * count ≤ buf.length := by
  refine ⟨?_, ?_, ?_⟩
  · intro params encoded hparams h
    obtain ⟨hfits, hoids, hvalues⟩ := encodeParams_octets h
    obtain ⟨oids, values⟩ := encoded
    simp only at hoids hvalues
    subst hoids hvalues
    have hsplit := @splitValues_fields (params.map fun param => param.encode.field) (by
      intro field hmem octets hfield
      obtain ⟨param, hparam, rfl⟩ := List.mem_map.mp hmem
      exact Encoding.field_fits (hfits param hparam) hfield)
    rw [List.length_map] at hsplit
    refine ⟨_, hsplit, List.length_map _, List.length_map _, ?_⟩
    rw [List.zip_map', List.forall₂_map_right_iff, List.forall₂_same]
    intro param hmem
    exact Param.decodedBy (hparams param hmem).1 (hparams param hmem).2 (hfits param hmem)
  · intro t oid buf
    exact (t.impl_total.fromSql oid buf).ne_panic
  · intro t buf zone
    refine ⟨(FromSql.decodeArray_returns t.impl_total buf zone).ne_panic, ?_⟩
    intro elementOid count hheader
    have hreturns := FromSql.arrayHeader_returns t.impl.accepts buf
    rw [hheader] at hreturns
    exact hreturns elementOid count rfl

def nullParams : List Param :=
  [⟨.vec (.option .int4), ([some (-1), none] : List (Option Int32))⟩,
    ⟨.option .bool, (none : Option Bool)⟩]

theorem sqlValue_codec_nulls :
    ∃ encoded entries, encodeParams nullParams = .ok encoded ∧
      splitValues 2 encoded.values = some entries ∧
      List.Forall₂ (fun (param : Param) entry => param.DecodedBy entry.1 entry.2) nullParams
        (encoded.oids.zip entries) := by
  have hsupported : ∀ param ∈ nullParams,
      param.type.Supported ∧ param.type.JsonLawful param.value := by
    intro param hmem
    simp only [nullParams, List.mem_cons, List.not_mem_nil, or_false] at hmem
    rcases hmem with rfl | rfl
    · exact ⟨.arrayNullable trivial, fun _ _ _ _ => trivial⟩
    · exact ⟨.nullable trivial, fun _ _ => trivial⟩
  obtain ⟨entries, hsplit, -, -, hdecoded⟩ := sqlValue_codec.1 nullParams _ hsupported rfl
  exact ⟨_, entries, rfl, hsplit, hdecoded⟩

end Stdx.Postgresql
