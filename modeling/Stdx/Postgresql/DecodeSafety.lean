import Stdx.Foundation.Returns
import Stdx.Postgresql.Decode

/-!
# Decoding does not panic

A slice is only taken behind a check of the length, and the count of an array is compared
with the payload before it sizes the vector.
-/

namespace Stdx.Postgresql

open Stdx.Foundation Stdx.Foundation.Outcome Stdx.Time

namespace FromSql

section

variable {α : Type}

theorem need_returns (buf : Bytes) (n : Nat) (what : String) :
    (need buf n what).Returns fun _ => n ≤ buf.length := by
  unfold need
  split
  · trivial
  · next h => exact Nat.not_lt.mp h

theorem readSlice_returns {read : Bytes → Nat → α} {n pos : Nat} {buf : Bytes}
    (h : pos + n ≤ buf.length) :
    (readSlice read n buf pos).Returns fun value => value = read buf pos := by
  rw [readSlice, if_pos h]
  rfl

end

/-- No function of the implementation panics. -/
structure Total {α : Type} (T : FromSql α) : Prop where
  fromSql : ∀ oid buf, (T.fromSql oid buf).Returns fun _ => True
  fromSqlZoned : ∀ oid buf zone, (T.fromSqlZoned oid buf zone).Returns fun _ => True
  fromSqlNull : T.fromSqlNull.Returns fun _ => True

section

variable {α : Type}

theorem provided_total {fromSql : Oid → Bytes → Outcome Error α} {accepts : Oid → Bool}
    (h : ∀ oid buf, (fromSql oid buf).Returns fun _ => True) :
    (FromSql.provided fromSql accepts).Total where
  fromSql := h
  fromSqlZoned oid buf _ := h oid buf
  fromSqlNull := trivial

theorem numberImpl_total {n : Nat} {name : String} {oid : Oid} {read : Bytes → Nat → α} :
    (numberImpl n name oid (readSlice read n)).Total := by
  apply provided_total
  intro _ buf
  apply (need_returns buf n name).bind
  intro _ hlen
  exact returns_of_ne_panic (readSlice_returns (by omega)).ne_panic

end

theorem bool_total : bool.Total := by
  apply provided_total
  intro _ buf
  apply (need_returns buf 1 "bool").bind
  intro _ hlen
  exact (readSlice_returns hlen).bind fun _ _ => trivial

theorem text_total : text.Total := by
  apply provided_total
  intro _ buf
  split <;> trivial

theorem uuid_total : uuid.Total := by
  apply provided_total
  intro _ buf
  split <;> trivial

/-! ## Dates and times -/

theorem liftTime_total {α : Type} (result : Except Time.Error α) :
    (liftTime result).Returns fun _ => True := by
  cases result <;> trivial

theorem rejectTimestampInfinity_returns (micros : Int) :
    (rejectTimestampInfinity micros).Returns fun _ => True := by
  unfold rejectTimestampInfinity
  split <;> trivial

theorem rejectDateInfinity_returns (days : Int) :
    (rejectDateInfinity days).Returns fun _ => True := by
  unfold rejectDateInfinity
  split <;> trivial

theorem dateTimeFromSql_returns (oid : Oid) (buf : Bytes) :
    (dateTimeFromSql oid buf).Returns fun _ => True := by
  unfold dateTimeFromSql
  apply Returns.ite
  · intro _
    refine (need_returns buf 8 _).bind fun _ hlen => (readSlice_returns (by omega)).bind ?_
    intro micros _
    exact (rejectTimestampInfinity_returns micros).bind fun _ _ => liftTime_total _
  intro _
  apply Returns.ite
  · intro _
    refine (need_returns buf 4 _).bind fun _ hlen => (readSlice_returns (by omega)).bind ?_
    intro days _
    exact (rejectDateInfinity_returns days).bind fun _ _ => liftTime_total _
  intro _
  apply Returns.ite
  · intro _
    refine (need_returns buf 8 _).bind fun _ hlen => (readSlice_returns (by omega)).bind ?_
    intro micros _
    exact Returns.ite (fun _ => trivial) fun _ => liftTime_total _
  intro _
  apply Returns.ite
  · intro _
    refine (need_returns buf 12 _).bind fun _ hlen => (readSlice_returns (by omega)).bind ?_
    intro micros _
    refine (readSlice_returns (by omega)).bind fun offset _ => ?_
    exact Returns.ite (fun _ => trivial) fun _ => liftTime_total _
  · intro _
    trivial

theorem dateTimeFromSqlZoned_returns (oid : Oid) (buf : Bytes) (zone : TimeZone) :
    (dateTimeFromSqlZoned oid buf zone).Returns fun _ => True := by
  unfold dateTimeFromSqlZoned
  apply Returns.ite
  · intro _
    exact dateTimeFromSql_returns oid buf
  intro _
  apply Returns.ite
  · intro _
    refine (need_returns buf 8 _).bind fun _ hlen => (readSlice_returns (by omega)).bind ?_
    intro micros _
    refine (rejectTimestampInfinity_returns micros).bind fun _ _ => ?_
    exact (liftTime_total _).bind fun _ _ => liftTime_total _
  intro _
  apply Returns.ite
  · intro _
    refine (need_returns buf 4 _).bind fun _ hlen => (readSlice_returns (by omega)).bind ?_
    intro days _
    refine (rejectDateInfinity_returns days).bind fun _ _ => ?_
    exact (liftTime_total _).bind fun _ _ => liftTime_total _
  intro _
  apply Returns.ite
  · intro _
    refine (need_returns buf 8 _).bind fun _ hlen => (readSlice_returns (by omega)).bind ?_
    intro micros _
    exact (liftTime_total _).bind fun _ _ => liftTime_total _
  · intro _
    trivial

/-! ## JSON, networks and intervals -/

theorem parseJson_returns {J : Type} (codec : JsonCodec J) (buf : Bytes) :
    (parseJson codec buf).Returns fun _ => True := by
  unfold parseJson
  split <;> trivial

theorem json_total {J : Type} (codec : JsonCodec J) : (json codec).Total := by
  apply provided_total
  intro oid buf
  unfold jsonFromSql
  apply Returns.ite
  · intro _
    refine (need_returns buf 1 _).bind fun _ hlen => (readSlice_returns (by omega)).bind ?_
    intro version _
    apply Returns.ite
    · intro _
      trivial
    · intro _
      exact (readSlice_returns (by omega)).bind fun rest _ => parseJson_returns codec rest
  intro _
  exact Returns.ite (fun _ => parseJson_returns codec buf) fun _ => trivial

theorem liftNetwork_returns {width : Nat} (network : Option (Ipnetwork.Network width)) :
    (liftNetwork network).Returns fun _ => True := by
  cases network <;> trivial

theorem inet_total : inet.Total := by
  apply provided_total
  intro _ buf
  unfold inetFromSql
  refine (need_returns buf 4 _).bind fun _ hlen => (readSlice_returns (by omega)).bind ?_
  intro family _
  refine (readSlice_returns (by omega)).bind fun bits _ => ?_
  refine (readSlice_returns (by omega)).bind fun len _ => ?_
  refine (need_returns buf _ _).bind fun _ hlen => (readSlice_returns hlen).bind ?_
  intro addr _
  apply Returns.ite
  · intro _
    refine Returns.ite (fun _ => ?_) fun _ => trivial
    exact (liftNetwork_returns _).bind fun _ _ => trivial
  intro _
  apply Returns.ite
  · intro _
    refine Returns.ite (fun _ => ?_) fun _ => trivial
    exact (liftNetwork_returns _).bind fun _ _ => trivial
  · intro _
    trivial

theorem interval_total : interval.Total := by
  apply provided_total
  intro _ buf
  refine (need_returns buf 16 _).bind fun _ hlen => (readSlice_returns (by omega)).bind ?_
  intro micros _
  refine (readSlice_returns (by omega)).bind fun days _ => ?_
  exact (readSlice_returns (by omega)).bind fun months _ => trivial

/-! ## Options and arrays -/

theorem arrayHeader_returns (accepts : Oid → Bool) (buf : Bytes) :
    (arrayHeader accepts buf).Returns fun header =>
      ∀ elementOid count, header = some (elementOid, count) → 20 + 4 * count ≤ buf.length := by
  unfold arrayHeader
  refine (need_returns buf 12 _).bind fun _ hlen => (readSlice_returns (by omega)).bind ?_
  intro ndim _
  refine (readSlice_returns (by omega)).bind fun elementOid _ => ?_
  refine Returns.ite (fun _ => nofun) fun _ => Returns.ite (fun _ => trivial) fun _ => ?_
  refine (need_returns buf 20 _).bind fun _ hlen => (readSlice_returns (by omega)).bind ?_
  intro rawCount _
  refine Returns.ite (fun _ => trivial) fun _ => Returns.ite (fun _ => trivial) fun hcount => ?_
  refine Returns.ite (fun _ => trivial) fun _ => ?_
  rintro _ _ ⟨⟩
  omega

section

variable {α : Type} {T : FromSql α}

theorem mapSome_returns {result : Outcome Error α} (h : result.Returns fun _ => True) :
    (mapSome result).Returns fun _ => True := by
  cases result with
  | ok value => trivial
  | err err => trivial
  | panic => exact h

theorem option_total (h : T.Total) : (option T).Total where
  fromSql oid buf := mapSome_returns (h.fromSql oid buf)
  fromSqlZoned oid buf zone := mapSome_returns (h.fromSqlZoned oid buf zone)
  fromSqlNull := trivial

theorem octetsFrom_returns {buf : Bytes} {pos : Nat} (h : pos ≤ buf.length) :
    (octetsFrom buf pos).Returns fun octets => octets = buf.drop pos :=
  readSlice_returns h

theorem decodeElements_returns (h : T.Total) (elementOid : Oid) (zone : TimeZone) (buf : Bytes)
    (count pos : Nat) (hpos : pos ≤ buf.length) :
    (decodeElements T elementOid zone buf count pos).Returns fun values =>
      values.length = count := by
  induction count generalizing pos with
  | zero => rfl
  | succ count ih =>
    rw [decodeElements]
    apply (octetsFrom_returns hpos).bind
    rintro rest rfl
    apply (need_returns _ 4 _).bind
    intro _ hlen
    rw [List.length_drop] at hlen
    apply (readSlice_returns (by omega)).bind
    intro rawLen _
    apply Returns.ite
    · intro _
      refine h.fromSqlNull.bind fun value _ => (ih (pos + 4) (by omega)).bind ?_
      rintro values rfl
      rfl
    intro _
    apply Returns.ite
    · intro _
      trivial
    intro _
    apply (octetsFrom_returns (by omega)).bind
    rintro rest rfl
    apply (need_returns _ rawLen.toNat _).bind
    intro _ hfits
    rw [List.length_drop] at hfits
    apply (readSlice_returns (by omega)).bind
    intro octets _
    refine (h.fromSqlZoned elementOid octets zone).bind fun value _ => ?_
    refine (ih (pos + 4 + rawLen.toNat) (by omega)).bind ?_
    rintro values rfl
    rfl

theorem decodeArray_returns (h : T.Total) (buf : Bytes) (zone : TimeZone) :
    (decodeArray T buf zone).Returns fun values => 4 * values.length ≤ buf.length := by
  apply (arrayHeader_returns T.accepts buf).bind
  intro header hheader
  cases header with
  | none => exact Nat.zero_le _
  | some header =>
    have hcount := hheader header.1 header.2 rfl
    have hvalues := decodeElements_returns h header.1 zone buf header.2 20 (by omega)
    change (decodeElements T header.1 zone buf header.2 20).Returns _
    cases hrun : decodeElements T header.1 zone buf header.2 20 with
    | ok values =>
      rw [hrun] at hvalues
      change values.length = header.2 at hvalues
      change 4 * values.length ≤ buf.length
      omega
    | err err => trivial
    | panic =>
      rw [hrun] at hvalues
      exact hvalues

theorem vec_total (h : T.Total) : (vec T).Total where
  fromSql _ buf := returns_of_ne_panic (decodeArray_returns h buf .utc).ne_panic
  fromSqlZoned _ buf zone := returns_of_ne_panic (decodeArray_returns h buf zone).ne_panic
  fromSqlNull := trivial

end

end FromSql

theorem SqlType.impl_total (t : SqlType) : t.impl.Total := by
  induction t with
  | int2 => exact FromSql.numberImpl_total
  | int4 => exact FromSql.numberImpl_total
  | int8 => exact FromSql.numberImpl_total
  | float4 => exact FromSql.numberImpl_total
  | float8 => exact FromSql.numberImpl_total
  | bool => exact FromSql.bool_total
  | text => exact FromSql.text_total
  | bytea => exact FromSql.provided_total fun _ _ => trivial
  | uuid => exact FromSql.uuid_total
  | dateTime =>
    exact ⟨FromSql.dateTimeFromSql_returns, FromSql.dateTimeFromSqlZoned_returns, trivial⟩
  | json J codec => exact FromSql.json_total codec
  | inet => exact FromSql.inet_total
  | interval => exact FromSql.interval_total
  | option t ih => exact FromSql.option_total ih
  | vec t ih => exact FromSql.vec_total ih

end Stdx.Postgresql
