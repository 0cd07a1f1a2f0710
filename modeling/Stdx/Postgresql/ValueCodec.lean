import Mathlib
import Stdx.Postgresql.DecodeSafety
import Stdx.Postgresql.Encode
import Stdx.Postgresql.FrontendGrammar

/-!
# Round trips of values

What a parameter is encoded as is decoded as the parameter again, a `DateTime` rounded down
to the microsecond.
-/

namespace Stdx.Postgresql

open Stdx.Foundation Stdx.Foundation.Outcome Stdx.Time

/-! ## Integers -/

theorem readI16_i16Octets {value : Int} (hlow : -2 ^ 15 ≤ value) (hhigh : value < 2 ^ 15) :
    readI16 (ToSql.i16Octets value) = value := by
  have hread := @readI16_octets (ToSql.i16Octets value) [] (value % 2 ^ 16).toNat
    (List.append_nil _).symm (by omega)
  rw [hread]
  split <;> omega

theorem readI64_i64Octets {buf rest : Bytes} {pos : Nat} {value : Int}
    (h : buf.drop pos = ToSql.i64Octets value ++ rest) (hlow : -2 ^ 63 ≤ value)
    (hhigh : value < 2 ^ 63) : readI64 buf pos = value := by
  have htake : (buf.drop pos).take 8 = ToSql.i64Octets value := by
    rw [h]
    exact List.take_left' (fixedOctets_length 8 _)
  unfold readI64
  simp only [htake, ToSql.i64Octets, beValue_fixedOctets]
  split <;> omega

/-! ## Implementations that belong together -/

/-- What one implementation encodes of the values in `good`, the other decodes. -/
structure Codec {α : Type} (T : FromSql α) (E : ToSql α) (rounded : α → α)
    (good : α → Prop) : Prop where
  accepts : T.accepts E.oid = true
  fromSql : ∀ value, good value → (E.encode value).result = .ok .notNull →
    T.fromSql E.oid (E.encode value).octets = .ok (rounded value)
  fromSqlZoned : ∀ value, good value → (E.encode value).result = .ok .notNull →
    T.fromSqlZoned E.oid (E.encode value).octets .utc = .ok (rounded value)
  fromSqlNull : ∀ value, (E.encode value).result = .ok .null →
    T.fromSqlNull = .ok (rounded value)

def ToSql.NeverNull {α : Type} (E : ToSql α) : Prop :=
  ∀ value, (E.encode value).result ≠ .ok .null

section

variable {α : Type} {T : FromSql α} {E : ToSql α} {rounded : α → α} {good : α → Prop}

theorem Codec.of_provided {fromSql : Oid → Bytes → Outcome Error α} {accepts : Oid → Bool}
    (hnull : E.NeverNull) (haccepts : accepts E.oid = true)
    (h : ∀ value, good value → (E.encode value).result = .ok .notNull →
      fromSql E.oid (E.encode value).octets = .ok (rounded value)) :
    Codec (.provided fromSql accepts) E rounded good where
  accepts := haccepts
  fromSql := h
  fromSqlZoned := h
  fromSqlNull value hresult := absurd hresult (hnull value)

theorem Codec.of_number {n : Nat} {name : String} {read : Bytes → Nat → α}
    (hnull : E.NeverNull) (hlength : ∀ value, (E.encode value).octets.length = n)
    (h : ∀ value, read (E.encode value).octets 0 = value) :
    Codec (FromSql.numberImpl n name E.oid (FromSql.readSlice read n)) E id good := by
  refine Codec.of_provided hnull (beq_self_eq_true E.oid) fun value _ _ => ?_
  have hlen := hlength value
  have hneed : FromSql.need (E.encode value).octets n name = .ok () := if_neg (by omega)
  rw [hneed, Outcome.ok_bind, FromSql.readSlice, if_pos (by omega), h, id]

theorem Codec.option (h : Codec T E rounded good) (hnull : E.NeverNull) :
    Codec (FromSql.option T) (ToSql.option E) (Option.map rounded)
      (fun value => ∀ inner ∈ value, good inner) where
  accepts := h.accepts
  fromSql value hgood hresult := by
    cases value with
    | none => cases hresult
    | some value =>
      change FromSql.mapSome (T.fromSql E.oid (E.encode value).octets) = _
      rw [h.fromSql value (hgood value rfl) hresult]
      rfl
  fromSqlZoned value hgood hresult := by
    cases value with
    | none => cases hresult
    | some value =>
      change FromSql.mapSome (T.fromSqlZoned E.oid (E.encode value).octets .utc) = _
      rw [h.fromSqlZoned value (hgood value rfl) hresult]
      rfl
  fromSqlNull value hresult := by
    cases value with
    | none => rfl
    | some value => exact absurd hresult (hnull value)

end

/-! ## Scalars -/

theorem ToSql.written_neverNull {α : Type} {octets : α → Bytes} {oid : Oid} :
    (ToSql.mk (fun value => ToSql.written (octets value)) oid).NeverNull :=
  fun _ => nofun

theorem int2_codec : Codec FromSql.int2 ToSql.int2 id ⊤ := by
  apply Codec.of_number ToSql.written_neverNull
  · intro value
    exact fixedOctets_length 2 _
  · intro value
    change Int16.ofInt (readI16 (ToSql.i16Octets value.toInt)) = value
    rw [readI16_i16Octets value.le_toInt value.toInt_lt, Int16.ofInt_toInt]

theorem int4_codec : Codec FromSql.int4 ToSql.int4 id ⊤ := by
  apply Codec.of_number ToSql.written_neverNull
  · intro value
    exact i32Octets_length _
  · intro value
    change Int32.ofInt (readI32 (i32Octets value.toInt) 0) = value
    rw [readI32_octets (List.append_nil _).symm value.le_toInt value.toInt_lt, Int32.ofInt_toInt]

theorem int8_codec : Codec FromSql.int8 ToSql.int8 id ⊤ := by
  apply Codec.of_number ToSql.written_neverNull
  · intro value
    exact fixedOctets_length 8 _
  · intro value
    change Int64.ofInt (readI64 (ToSql.i64Octets value.toInt) 0) = value
    rw [readI64_i64Octets (List.append_nil _).symm value.le_toInt value.toInt_lt,
      Int64.ofInt_toInt]

theorem float4_codec : Codec FromSql.float4 ToSql.float4 id ⊤ := by
  apply Codec.of_number ToSql.written_neverNull
  · intro value
    exact fixedOctets_length 4 _
  · intro value
    change UInt32.ofNat (beValue ((fixedOctets 4 value.toNat).take 4)) = value
    rw [List.take_of_length_le (by rw [fixedOctets_length]), beValue_fixedOctets,
      Nat.mod_eq_of_lt (by have := value.toNat_lt; omega), UInt32.ofNat_toNat]

theorem float8_codec : Codec FromSql.float8 ToSql.float8 id ⊤ := by
  apply Codec.of_number ToSql.written_neverNull
  · intro value
    exact fixedOctets_length 8 _
  · intro value
    change UInt64.ofNat (beValue ((fixedOctets 8 value.toNat).take 8)) = value
    rw [List.take_of_length_le (by rw [fixedOctets_length]), beValue_fixedOctets,
      Nat.mod_eq_of_lt (by have := value.toNat_lt; omega), UInt64.ofNat_toNat]

theorem bool_codec : Codec FromSql.bool ToSql.bool id ⊤ := by
  apply Codec.of_provided ToSql.written_neverNull rfl
  intro value _ _
  cases value <;> rfl

theorem text_codec : Codec FromSql.text ToSql.text id ⊤ := by
  apply Codec.of_provided ToSql.written_neverNull rfl
  intro value _ _
  simp only [ToSql.written, fromUtf8_utf8, id]

theorem bytea_codec : Codec FromSql.bytea ToSql.bytea id ⊤ :=
  .of_provided (fun _ => nofun) rfl fun _ _ _ => rfl

theorem uuid_codec : Codec FromSql.uuid ToSql.uuid id ⊤ := by
  apply Codec.of_provided ToSql.written_neverNull rfl
  intro value _ _
  exact dif_pos value.length_eq

/-! ## Dates and times -/

theorem utc_offset (secs : Int) : 0 = TimeZone.utc.offsetAt secs := rfl

def floorMicros (dt : DateTime) : DateTime where
  secs := dt.secs
  nanos := ⟨dt.nanos / 1000 * 1000, by omega⟩
  offset := 0
  zone := .utc
  supported := dt.supported
  offset_eq := utc_offset dt.secs

theorem supported_secs (dt : DateTime) : -377705116800 ≤ dt.secs ∧ dt.secs ≤ 253402300799 := by
  have hmin : MIN_SECS = -377705116800 := by decide
  have hmax : MAX_SECS = 253402300799 := by decide
  rw [← hmin, ← hmax]
  exact dt.supported

theorem pgEpoch_eq :
    ToSql.pgEpoch = .ok ⟨PG_EPOCH_UNIX, 0, 0, .utc, by decide, rfl⟩ := by
  have hdiv : PG_EPOCH_UNIX * 1000000000 / 1000000000 = PG_EPOCH_UNIX := by decide
  rw [ToSql.pgEpoch, DateTime.fromUnix, DateTime.fromUnixNanos_eq, DateTime.fromRawChecked,
    dif_pos (by rw [hdiv]; decide)]
  simp only [hdiv]
  rfl

theorem encodeDateTime_eq (dt : DateTime) :
    ToSql.encodeDateTime dt = ToSql.written (ToSql.i64Octets
      ((dt.secs - PG_EPOCH_UNIX) * 1000000 + (dt.nanos.val / 1000 : Nat))) := by
  obtain ⟨hmin, hmax⟩ := supported_secs dt
  have hnanos := dt.nanos.isLt
  have hsince : ∀ h, ToSql.signedDurationSince dt ⟨PG_EPOCH_UNIX, 0, 0, .utc, h, rfl⟩ =
      (dt.secs - PG_EPOCH_UNIX, dt.nanos.val) := by
    intro h
    simp [ToSql.signedDurationSince]
  have hfits : ToSql.inI64 ((dt.secs - PG_EPOCH_UNIX) * 1000000) = true ∧ ToSql.inI64
      ((dt.secs - PG_EPOCH_UNIX) * 1000000 + (dt.nanos.val / 1000 : Nat)) = true := by
    constructor <;>
    · apply decide_eq_true
      rw [PG_EPOCH_UNIX]
      omega
  rw [ToSql.encodeDateTime, pgEpoch_eq]
  simp only [hsince, hfits, Bool.and_self, if_true]

theorem fromPgMicros_eq (dt : DateTime) :
    FromSql.fromPgMicros ((dt.secs - PG_EPOCH_UNIX) * 1000000 + (dt.nanos.val / 1000 : Nat)) =
      .ok (floorMicros dt) := by
  have hnanos := dt.nanos.isLt
  have hsum : PG_EPOCH_UNIX * 1000000000 + ((dt.secs - PG_EPOCH_UNIX) * 1000000 +
      (dt.nanos.val / 1000 : Nat)) * 1000 =
      dt.secs * 1000000000 + (dt.nanos.val / 1000 * 1000 : Nat) := by
    simp only [PG_EPOCH_UNIX]
    omega
  have hdiv : (dt.secs * 1000000000 + (dt.nanos.val / 1000 * 1000 : Nat)) / 1000000000 =
      dt.secs := by omega
  have hmod : (dt.secs * 1000000000 + (dt.nanos.val / 1000 * 1000 : Nat)) % 1000000000 =
      (dt.nanos.val / 1000 * 1000 : Nat) := by omega
  have hlt : dt.nanos.val / 1000 * 1000 < 1000000000 := by omega
  rw [FromSql.fromPgMicros, hsum, DateTime.fromUnixNanos_eq, hdiv, hmod, Int.toNat_natCast,
    DateTime.fromRawChecked, dif_pos dt.supported, FromSql.liftTime]
  simp only [floorMicros, TimeZone.offsetAt, Fin.ofNat, Nat.mod_eq_of_lt hlt]

theorem dateTimeFromSql_i64Octets {micros : Int} (hlow : -2 ^ 63 < micros)
    (hhigh : micros < 2 ^ 63 - 1) :
    FromSql.dateTimeFromSql TIMESTAMPTZOID (ToSql.i64Octets micros) =
      FromSql.fromPgMicros micros := by
  have hlength : (ToSql.i64Octets micros).length = 8 := fixedOctets_length 8 _
  have hread := @readI64_i64Octets (ToSql.i64Octets micros) [] 0 micros (List.append_nil _).symm
    (by omega) (by omega)
  have hneed : FromSql.need (ToSql.i64Octets micros) 8 "timestamp" = .ok () :=
    if_neg (by omega)
  have hat : FromSql.i64At (ToSql.i64Octets micros) 0 = .ok micros := by
    rw [FromSql.i64At, FromSql.readSlice, if_pos (by omega), hread]
  have hfinite : FromSql.rejectTimestampInfinity micros = .ok () := if_neg (by omega)
  rw [FromSql.dateTimeFromSql, if_pos (.inl rfl), hneed, Outcome.ok_bind, hat, Outcome.ok_bind,
    hfinite, Outcome.ok_bind]

theorem dateTime_neverNull : ToSql.dateTime.NeverNull := by
  intro dt hresult
  change (ToSql.encodeDateTime dt).result = _ at hresult
  rw [encodeDateTime_eq] at hresult
  cases hresult

theorem dateTime_codec : Codec FromSql.dateTime ToSql.dateTime floorMicros ⊤ := by
  have hrun : ∀ dt : DateTime, FromSql.dateTimeFromSql TIMESTAMPTZOID
      (ToSql.encodeDateTime dt).octets = .ok (floorMicros dt) := by
    intro dt
    obtain ⟨hmin, hmax⟩ := supported_secs dt
    have hnanos := dt.nanos.isLt
    rw [encodeDateTime_eq, ToSql.written, dateTimeFromSql_i64Octets (by rw [PG_EPOCH_UNIX]; omega)
      (by rw [PG_EPOCH_UNIX]; omega), fromPgMicros_eq]
  exact ⟨rfl, fun dt _ _ => hrun dt, fun dt _ _ => hrun dt,
    fun dt h => absurd h (dateTime_neverNull dt)⟩

/-! ## JSON, networks and intervals -/

/-- What the serializer writes of `value`, the parser reads back. -/
def JsonCodec.LawfulAt {J : Type} (codec : JsonCodec J) (value : J) : Prop :=
  ∀ octets, codec.toWriter value = (octets, none) → codec.fromSlice octets = .ok value

theorem json_neverNull {J : Type} (codec : JsonCodec J) : (ToSql.json codec).NeverNull := by
  intro value hresult
  simp only [ToSql.json] at hresult
  split at hresult <;> cases hresult

theorem json_codec {J : Type} (codec : JsonCodec J) :
    Codec (FromSql.json codec) (ToSql.json codec) id codec.LawfulAt := by
  apply Codec.of_provided (json_neverNull codec) rfl
  intro value h hresult
  rcases hwrite : codec.toWriter value with ⟨octets, message⟩
  simp only [ToSql.json, hwrite] at hresult ⊢
  cases message with
  | some message => cases hresult
  | none =>
    have hneed : FromSql.need (1 :: octets) 1 "jsonb" = .ok () :=
      if_neg (by simp)
    have hversion : FromSql.u8At (1 :: octets) 0 = .ok 1 := by
      simp [FromSql.u8At, FromSql.readSlice]
    have hrest : FromSql.octetsFrom (1 :: octets) 1 = .ok octets := by
      simp [FromSql.octetsFrom, FromSql.readSlice]
    simp only [ToSql.written, FromSql.jsonFromSql, if_true, hneed, hversion, Outcome.ok_bind,
      ne_eq, not_true, if_false, hrest, FromSql.parseJson, h octets hwrite, id]

theorem inetFromSql_append (oid : Oid) (family bits flag size : UInt8) {addr : Bytes}
    (h : addr.length = size.toNat) :
    FromSql.inetFromSql oid ([family, bits, flag, size] ++ addr) =
      if family = 2 then
        if addr.length = 4 then do
          .ok (.v4 (← FromSql.liftNetwork
            (Ipnetwork.Network.new (BitVec.ofNat 32 (beValue addr)) bits.toNat)))
        else .err (.decode "invalid IPv4 length")
      else if family = 3 then
        if addr.length = 16 then do
          .ok (.v6 (← FromSql.liftNetwork
            (Ipnetwork.Network.new (BitVec.ofNat 128 (beValue addr)) bits.toNat)))
        else .err (.decode "invalid IPv6 length")
      else .err (.decode ("unknown inet family " ++ toString family)) := by
  obtain ⟨buf, hbuf⟩ : ∃ buf, [family, bits, flag, size] ++ addr = buf := ⟨_, rfl⟩
  have hlength : buf.length = 4 + size.toNat := by
    rw [← hbuf, List.length_append, h]
    rfl
  have hneed : FromSql.need buf 4 "inet" = .ok () := if_neg (by omega)
  have hneed' : FromSql.need buf (4 + size.toNat) "inet" = .ok () := if_neg (by omega)
  have hfamily : FromSql.u8At buf 0 = .ok family := by
    rw [FromSql.u8At, FromSql.readSlice, if_pos (by omega), ← hbuf]
    rfl
  have hbits : FromSql.u8At buf 1 = .ok bits := by
    rw [FromSql.u8At, FromSql.readSlice, if_pos (by omega), ← hbuf]
    rfl
  have hsize : FromSql.u8At buf 3 = .ok size := by
    rw [FromSql.u8At, FromSql.readSlice, if_pos (by omega), ← hbuf]
    rfl
  have haddr : FromSql.octetsAt buf 4 size.toNat = .ok addr := by
    rw [FromSql.octetsAt, FromSql.readSlice, if_pos (by omega), ← hbuf, ← h]
    exact congrArg Outcome.ok List.take_length
  rw [hbuf]
  simp only [FromSql.inetFromSql, hneed, hfamily, hbits, hsize, hneed', haddr, Outcome.ok_bind]

theorem liftNetwork_new {width : Nat} (net : Ipnetwork.Network width) :
    FromSql.liftNetwork (Ipnetwork.Network.new net.addr net.prefixLen) = .ok net := by
  rw [Ipnetwork.Network.new, dif_pos net.bounded, FromSql.liftNetwork]

theorem addr_octets {width size : Nat} (addr : BitVec width) (h : 2 ^ width = 256 ^ size) :
    BitVec.ofNat width (beValue (fixedOctets size addr.toNat)) = addr := by
  rw [beValue_fixedOctets, Nat.mod_eq_of_lt (by rw [← h]; exact addr.isLt), BitVec.ofNat_toNat,
    BitVec.setWidth_eq]

theorem prefixLen_octet {width : Nat} (net : Ipnetwork.Network width) (h : width < 256) :
    (UInt8.ofNat net.prefixLen).toNat = net.prefixLen := by
  have hbounded := net.bounded
  have hsize : UInt8.size = 256 := rfl
  rw [UInt8.toNat_ofNat_of_lt' (by omega)]

theorem inet_codec : Codec FromSql.inet ToSql.inet id ⊤ := by
  have hnull : ToSql.inet.NeverNull := by
    intro value hresult
    cases value <;> cases hresult
  apply Codec.of_provided hnull rfl
  intro value _ _
  cases value with
  | v4 net =>
    change FromSql.inetFromSql INETOID
      ([2, UInt8.ofNat net.prefixLen, 0, 4] ++ fixedOctets 4 net.addr.toNat) = _
    rw [inetFromSql_append _ _ _ _ _ (fixedOctets_length 4 _), if_pos rfl,
      if_pos (fixedOctets_length 4 _), addr_octets net.addr (by norm_num),
      prefixLen_octet net (by omega), liftNetwork_new]
    rfl
  | v6 net =>
    change FromSql.inetFromSql INETOID
      ([3, UInt8.ofNat net.prefixLen, 0, 16] ++ fixedOctets 16 net.addr.toNat) = _
    rw [inetFromSql_append _ _ _ _ _ (fixedOctets_length 16 _), if_neg (by decide), if_pos rfl,
      if_pos (fixedOctets_length 16 _), addr_octets net.addr (by norm_num),
      prefixLen_octet net (by omega), liftNetwork_new]
    rfl

theorem interval_codec : Codec FromSql.interval ToSql.interval id ⊤ := by
  apply Codec.of_provided ToSql.written_neverNull rfl
  rintro ⟨months, days, micros⟩ _ _
  obtain ⟨buf, hbuf⟩ : ∃ buf, ToSql.i64Octets micros.toInt ++ i32Octets days.toInt ++
    i32Octets months.toInt = buf := ⟨_, rfl⟩
  have hfront : (ToSql.i64Octets micros.toInt).length = 8 := fixedOctets_length 8 _
  have hlength : buf.length = 16 := by
    rw [← hbuf, List.length_append, List.length_append, hfront, i32Octets_length,
      i32Octets_length]
  have hmicros : readI64 buf 0 = micros.toInt := by
    apply readI64_i64Octets _ micros.le_toInt micros.toInt_lt
    · exact i32Octets days.toInt ++ i32Octets months.toInt
    · rw [← hbuf, List.drop_zero, List.append_assoc]
  have hdays : readI32 buf 8 = days.toInt := by
    apply readI32_octets _ days.le_toInt days.toInt_lt
    · exact i32Octets months.toInt
    · rw [← hbuf, List.append_assoc, List.drop_left' hfront]
  have hmonths : readI32 buf 12 = months.toInt := by
    apply readI32_octets _ months.le_toInt months.toInt_lt
    · exact []
    · rw [← hbuf, List.append_nil, List.drop_left']
      rw [List.length_append, hfront, i32Octets_length]
  have hneed : FromSql.need buf 16 "interval" = .ok () := if_neg (by omega)
  have hmicros' : FromSql.i64At buf 0 = .ok micros.toInt := by
    rw [FromSql.i64At, FromSql.readSlice, if_pos (by omega), hmicros]
  have hdays' : FromSql.i32At buf 8 = .ok days.toInt := by
    rw [FromSql.i32At, FromSql.readSlice, if_pos (by omega), hdays]
  have hmonths' : FromSql.i32At buf 12 = .ok months.toInt := by
    rw [FromSql.i32At, FromSql.readSlice, if_pos (by omega), hmonths]
  simp only [ToSql.written, hbuf, hneed, hmicros', hdays', hmonths',
    Outcome.ok_bind, Int32.ofInt_toInt, Int64.ofInt_toInt, id]

/-! ## Arrays -/

theorem encodeElements_octets (items : List Encoding) (count : Nat) (hasNulls : Bool)
    (h : (encodeElements items count hasNulls).2.2.2 = none) :
    (encodeElements items count hasNulls).1 = fieldsOctets (items.map Encoding.field) ∧
      (encodeElements items count hasNulls).2.1 = count + items.length := by
  induction items generalizing count hasNulls with
  | nil => exact ⟨rfl, rfl⟩
  | cons item items ih =>
    have hfits := ((encodeElements_fits _ _ _).mp h).1 item List.mem_cons_self
    obtain ⟨isNull, hframed⟩ := framed_field "array element is larger than 2 GiB" item hfits
    simp only [encodeElements, hframed] at h ⊢
    split at h
    · next hcount =>
      obtain ⟨hoctets, hlength⟩ := ih _ _ h
      rw [if_pos hcount]
      simp only [hoctets, hlength, List.map_cons, fieldsOctets_cons, List.length_cons, true_and]
      omega
    · cases h

theorem encodeArray_octets {items : List Encoding} {elementOid : Nat}
    (h : (encodeArray items elementOid).result = .ok .notNull) :
    (∀ item ∈ items, item.Fits) ∧ items.length < 2 ^ 31 ∧
      ∃ flag, (encodeArray items elementOid).octets = i32Octets 1 ++ i32Octets flag ++
        fixedOctets 4 elementOid ++ i32Octets items.length ++ i32Octets 1 ++
        fieldsOctets (items.map Encoding.field) := by
  unfold encodeArray at h ⊢
  rcases hrun : encodeElements items 0 false with ⟨octets, count, hasNulls, err⟩
  rw [hrun] at h
  cases err with
  | some err => cases h
  | none =>
    obtain ⟨hoctets, hcount⟩ := encodeElements_octets items 0 false (by rw [hrun])
    obtain ⟨hfits, hlength⟩ := (encodeElements_fits items 0 false).mp (by rw [hrun])
    rw [hrun] at hoctets hcount
    simp only [Nat.zero_add] at hoctets hcount hlength
    refine ⟨hfits, ?_, _, by rw [hoctets, hcount]⟩
    rcases eq_or_ne items [] with rfl | hne
    · exact Nat.two_pow_pos 31
    · exact hlength hne

theorem fieldsOctets_length_le (fields : List (Option Bytes)) :
    4 * fields.length ≤ (fieldsOctets fields).length := by
  induction fields with
  | nil => exact Nat.le_refl 0
  | cons field fields ih =>
    have hfield : 4 ≤ (fieldOctets field).length := by
      cases field with
      | none => rw [fieldOctets, i32Octets_length]
      | some value =>
        rw [fieldOctets, List.length_append, i32Octets_length]
        exact Nat.le_add_right 4 _
    rw [fieldsOctets_cons, List.length_append, List.length_cons]
    omega

section

variable {α : Type} {T : FromSql α}

def FromSql.Decodes (T : FromSql α) (oid : Oid) (zone : TimeZone) : Option Bytes → α → Prop
  | none, value => T.fromSqlNull = .ok value
  | some octets, value => T.fromSqlZoned oid octets zone = .ok value

theorem decodeElements_fields {oid : Oid} {zone : TimeZone} {fields : List (Option Bytes)}
    {values : List α} (h : List.Forall₂ (T.Decodes oid zone) fields values)
    (hfits : ∀ field ∈ fields, ∀ octets, field = some octets → octets.length < 2 ^ 31)
    (front : Bytes) :
    FromSql.decodeElements T oid zone (front ++ fieldsOctets fields) fields.length
      front.length = .ok values := by
  induction h generalizing front with
  | nil => rfl
  | @cons field value fields values hvalue hrest ih =>
    obtain ⟨buf, hbuf⟩ : ∃ buf, front ++ fieldsOctets (field :: fields) = buf := ⟨_, rfl⟩
    have hdrop : buf.drop front.length = fieldOctets field ++ fieldsOctets fields := by
      rw [← hbuf, List.drop_left, fieldsOctets_cons]
    have hlength : buf.length = front.length +
        (fieldOctets field ++ fieldsOctets fields).length := by
      rw [← hbuf, List.length_append, fieldsOctets_cons]
    have hfrom : FromSql.octetsFrom buf front.length =
        .ok (fieldOctets field ++ fieldsOctets fields) := by
      rw [FromSql.octetsFrom, FromSql.readSlice, if_pos (by omega), hdrop]
    have hrest := ih fun other hmem => hfits other (List.mem_cons_of_mem _ hmem)
    rw [hbuf, List.length_cons, FromSql.decodeElements, hfrom, Outcome.ok_bind]
    cases field with
    | none =>
      have hread : readI32 buf front.length = -1 :=
        readI32_octets hdrop (by omega) (by omega)
      have hrest := hrest (front ++ i32Octets (-1))
      rw [List.append_assoc, List.length_append, i32Octets_length] at hrest
      change FromSql.decodeElements T oid zone (front ++ (fieldOctets none ++ _)) _ _ = _
        at hrest
      rw [← fieldsOctets_cons, hbuf] at hrest
      rw [fieldOctets, List.length_append, i32Octets_length] at hlength
      have hneed : FromSql.need (fieldOctets none ++ fieldsOctets fields) 4 "array element" =
          .ok () := if_neg (by rw [List.length_append, fieldOctets, i32Octets_length]; omega)
      have hat : FromSql.i32At buf front.length = .ok (-1) := by
        rw [FromSql.i32At, FromSql.readSlice, if_pos (by omega), hread]
      rw [hneed, Outcome.ok_bind, hat, Outcome.ok_bind, if_pos rfl]
      change T.fromSqlNull = .ok value at hvalue
      rw [hvalue, Outcome.ok_bind, hrest, Outcome.ok_bind]
    | some octets =>
      have hfit := hfits (some octets) List.mem_cons_self octets rfl
      have hfield : fieldOctets (some octets) ++ fieldsOctets fields =
          i32Octets octets.length ++ (octets ++ fieldsOctets fields) := by
        rw [fieldOctets, List.append_assoc]
      rw [hfield] at hdrop hlength ⊢
      have hread : readI32 buf front.length = octets.length :=
        readI32_octets hdrop (by omega) (by omega)
      have hrest := hrest (front ++ fieldOctets (some octets))
      rw [List.append_assoc, ← fieldsOctets_cons, hbuf, List.length_append, fieldOctets,
        List.length_append, i32Octets_length, ← Nat.add_assoc] at hrest
      have hdrop' : buf.drop (front.length + 4) = octets ++ fieldsOctets fields := by
        rw [← List.drop_drop, hdrop, List.drop_left' (i32Octets_length _)]
      rw [List.length_append, i32Octets_length, List.length_append] at hlength
      have hneed : FromSql.need (i32Octets octets.length ++ (octets ++ fieldsOctets fields)) 4
          "array element" = .ok () :=
        if_neg (by rw [List.length_append, i32Octets_length]; omega)
      have hat : FromSql.i32At buf front.length = .ok octets.length := by
        rw [FromSql.i32At, FromSql.readSlice, if_pos (by omega), hread]
      have hfrom' : FromSql.octetsFrom buf (front.length + 4) =
          .ok (octets ++ fieldsOctets fields) := by
        rw [FromSql.octetsFrom, FromSql.readSlice, if_pos (by omega), hdrop']
      have hneed' : FromSql.need (octets ++ fieldsOctets fields) octets.length
          "array element" = .ok () := if_neg (by rw [List.length_append]; omega)
      have hslice : FromSql.octetsAt buf (front.length + 4) octets.length = .ok octets := by
        rw [FromSql.octetsAt, FromSql.readSlice, if_pos (by omega), hdrop', List.take_left]
      rw [hneed, Outcome.ok_bind, hat, Outcome.ok_bind, if_neg (by omega), if_neg (by omega)]
      change T.fromSqlZoned oid octets zone = .ok value at hvalue
      simp only [Int.toNat_natCast, hfrom', Outcome.ok_bind, hneed', hslice, hvalue, hrest]

theorem arrayHeader_octets {accepts : Oid → Bool} {flag : Int} {oid : Oid}
    {fields : List (Option Bytes)} (haccepts : accepts oid = true)
    (hcount : fields.length < 2 ^ 31) :
    FromSql.arrayHeader accepts (i32Octets 1 ++ i32Octets flag ++ fixedOctets 4 oid.toNat ++
      i32Octets fields.length ++ i32Octets 1 ++ fieldsOctets fields) =
        .ok (some (oid, fields.length)) := by
  obtain ⟨buf, hbuf⟩ : ∃ buf, i32Octets 1 ++ i32Octets flag ++ fixedOctets 4 oid.toNat ++
    i32Octets fields.length ++ i32Octets 1 ++ fieldsOctets fields = buf := ⟨_, rfl⟩
  have hoid : (fixedOctets 4 oid.toNat).length = 4 := fixedOctets_length 4 _
  have hlength : buf.length = 20 + (fieldsOctets fields).length := by
    rw [← hbuf]
    simp only [List.length_append, i32Octets_length, hoid]
  have hfields := fieldsOctets_length_le fields
  have hdim : FromSql.i32At buf 0 = .ok 1 := by
    have hread : readI32 buf 0 = 1 := by
      apply readI32_octets _ (by omega) (by omega)
      · exact i32Octets flag ++ (fixedOctets 4 oid.toNat ++ (i32Octets fields.length ++
          (i32Octets 1 ++ fieldsOctets fields)))
      · rw [← hbuf]
        simp only [List.drop_zero, List.append_assoc]
    rw [FromSql.i32At, FromSql.readSlice, if_pos (by omega), hread]
  have hdrop : buf.drop 8 = fixedOctets 4 oid.toNat ++ (i32Octets fields.length ++
      (i32Octets 1 ++ fieldsOctets fields)) := by
    rw [← hbuf]
    simp only [List.append_assoc]
    rw [← List.append_assoc, List.drop_left' (by simp)]
  have hread : FromSql.u32At buf 8 = .ok oid := by
    rw [FromSql.u32At, FromSql.readSlice, if_pos (by omega), hdrop, List.take_left' hoid,
      beValue_fixedOctets, Nat.mod_eq_of_lt (by have := oid.toNat_lt; omega), UInt32.ofNat_toNat]
  have hsize : FromSql.i32At buf 12 = .ok fields.length := by
    have hread : readI32 buf 12 = fields.length := by
      apply readI32_octets _ (by omega) (by omega)
      · exact i32Octets 1 ++ fieldsOctets fields
      · rw [show 12 = 8 + 4 from rfl, ← List.drop_drop, hdrop, List.drop_left' hoid]
    rw [FromSql.i32At, FromSql.readSlice, if_pos (by omega), hread]
  have hneed : FromSql.need buf 12 "array" = .ok () := if_neg (by omega)
  have hneed' : FromSql.need buf 20 "array" = .ok () := if_neg (by omega)
  rw [hbuf]
  simp only [FromSql.arrayHeader, hneed, hdim, hread, hneed', hsize, Outcome.ok_bind]
  rw [if_neg (by decide), if_neg (by decide), if_neg (by omega), if_neg (by omega), haccepts]
  rfl

variable {E : ToSql α} {rounded : α → α} {good : α → Prop}

theorem Codec.decodes_field (h : Codec T E rounded good) {value : α} (hgood : good value)
    (hfits : (E.encode value).Fits) :
    T.Decodes E.oid .utc (E.encode value).field (rounded value) := by
  obtain hnull | ⟨hvalue, -⟩ := hfits
  · rw [Encoding.field, hnull]
    exact h.fromSqlNull value hnull
  · rw [Encoding.field, hvalue]
    exact h.fromSqlZoned value hgood hvalue

theorem vec_neverNull : (ToSql.vec E).NeverNull := by
  intro values hresult
  change (encodeArray (values.map E.encode) E.oid.toNat).result = .ok .null at hresult
  unfold encodeArray at hresult
  split at hresult <;> cases hresult

theorem Encoding.field_fits {item : Encoding} (h : item.Fits) {octets : Bytes}
    (hfield : item.field = some octets) : octets.length < 2 ^ 31 := by
  obtain hnull | ⟨hvalue, hlength⟩ := h
  · rw [Encoding.field, hnull] at hfield
    cases hfield
  · rw [Encoding.field, hvalue] at hfield
    cases hfield
    exact hlength

theorem Codec.vec (h : Codec T E rounded good)
    (hoid : arrayElement ((arrayOid E.oid).getD 0) = some E.oid) :
    Codec (FromSql.vec T) (ToSql.vec E) (List.map rounded)
      (fun values => ∀ value ∈ values, good value) := by
  have hrun : ∀ values, (∀ value ∈ values, good value) →
      ((ToSql.vec E).encode values).result = .ok .notNull →
      FromSql.decodeArray T ((ToSql.vec E).encode values).octets .utc =
        .ok (values.map rounded) := by
    intro values hgood hresult
    obtain ⟨hfits, hcount, flag, hoctets⟩ := encodeArray_octets hresult
    have hheader := @arrayHeader_octets T.accepts flag E.oid
      ((values.map E.encode).map Encoding.field) h.accepts (by rwa [List.length_map])
    have hfront : (i32Octets 1 ++ i32Octets flag ++ fixedOctets 4 E.oid.toNat ++
        i32Octets (values.map E.encode).length ++ i32Octets 1).length = 20 := by
      simp only [List.length_append, i32Octets_length, fixedOctets_length]
    have hvalues : List.Forall₂ (T.Decodes E.oid .utc)
        ((values.map E.encode).map Encoding.field) (values.map rounded) := by
      rw [List.map_map, List.forall₂_map_left_iff, List.forall₂_map_right_iff,
        List.forall₂_same]
      intro value hmem
      exact h.decodes_field (hgood value hmem) (hfits _ (List.mem_map_of_mem hmem))
    have helements := decodeElements_fields hvalues (by
      intro field hmem octets hfield
      obtain ⟨item, hitem, rfl⟩ := List.mem_map.mp hmem
      exact Encoding.field_fits (hfits item hitem) hfield) (i32Octets 1 ++ i32Octets flag ++
        fixedOctets 4 E.oid.toNat ++ i32Octets (values.map E.encode).length ++ i32Octets 1)
    have hsame : ((values.map E.encode).map Encoding.field).length =
        (values.map E.encode).length := List.length_map _
    rw [hfront, hsame] at helements
    rw [hsame] at hheader
    change FromSql.decodeArray T (encodeArray (values.map E.encode) E.oid.toNat).octets .utc = _
    rw [hoctets, FromSql.decodeArray, hheader, Outcome.ok_bind]
    exact helements
  have haccepts : (arrayElement ((arrayOid E.oid).getD 0)).any T.accepts = true := by
    rw [hoid, Option.any_some, h.accepts]
  exact ⟨haccepts, hrun, hrun, fun values hresult => absurd hresult (vec_neverNull values)⟩

end

/-! ## The supported types -/

namespace SqlType

def rounded : (t : SqlType) → t.Value → t.Value
  | dateTime => floorMicros
  | option t => Option.map t.rounded
  | vec t => List.map t.rounded
  | int2 | int4 | int8 | float4 | float8 | bool | text | bytea | uuid | json _ _ | inet
  | interval => id

def IsScalar : SqlType → Prop
  | option _ | vec _ => False
  | _ => True

/-- The JSON documents in a value are read back as they are written. -/
def JsonLawful : (t : SqlType) → t.Value → Prop
  | json _ codec => codec.LawfulAt
  | option t => fun value => ∀ inner ∈ (show Option t.Value from value), t.JsonLawful inner
  | vec t => fun values => ∀ value ∈ (show List t.Value from values), t.JsonLawful value
  | int2 | int4 | int8 | float4 | float8 | bool | text | bytea | uuid | dateTime | inet
  | interval => ⊤

/-- A scalar or an array of scalars, where both may be `NULL`. -/
inductive Supported : SqlType → Prop
  | scalar {t : SqlType} : t.IsScalar → Supported t
  | nullable {t : SqlType} : t.IsScalar → Supported (.option t)
  | array {t : SqlType} : t.IsScalar → Supported (.vec t)
  | arrayNullable {t : SqlType} : t.IsScalar → Supported (.vec (.option t))
  | nullableArray {t : SqlType} : t.IsScalar → Supported (.option (.vec t))
  | nullableArrayNullable {t : SqlType} : t.IsScalar → Supported (.option (.vec (.option t)))

theorem scalar_codec {t : SqlType} (h : t.IsScalar) :
    Codec t.impl t.toSql t.rounded t.JsonLawful := by
  cases t with
  | int2 => exact int2_codec
  | int4 => exact int4_codec
  | int8 => exact int8_codec
  | float4 => exact float4_codec
  | float8 => exact float8_codec
  | bool => exact bool_codec
  | text => exact text_codec
  | bytea => exact bytea_codec
  | uuid => exact uuid_codec
  | dateTime => exact dateTime_codec
  | json J codec => exact json_codec codec
  | inet => exact inet_codec
  | interval => exact interval_codec
  | option t => exact h.elim
  | vec t => exact h.elim

theorem scalar_neverNull {t : SqlType} (h : t.IsScalar) : t.toSql.NeverNull := by
  cases t with
  | int2 | int4 | int8 | float4 | float8 | bool | text | bytea | uuid | interval =>
    exact fun _ => nofun
  | dateTime => exact dateTime_neverNull
  | json J codec => exact json_neverNull codec
  | inet =>
    intro value hresult
    cases value <;> cases hresult
  | option t => exact h.elim
  | vec t => exact h.elim

theorem scalar_element {t : SqlType} (h : t.IsScalar) :
    arrayElement ((arrayOid t.toSql.oid).getD 0) = some t.toSql.oid := by
  cases t with
  | int2 | int4 | int8 | float4 | float8 | bool | text | bytea | uuid | dateTime | inet
  | interval => decide
  | json J codec =>
    have hoid : arrayElement ((arrayOid JSONBOID).getD 0) = some JSONBOID := by decide
    exact hoid
  | option t => exact h.elim
  | vec t => exact h.elim

theorem supported_codec {t : SqlType} (h : t.Supported) :
    Codec t.impl t.toSql t.rounded t.JsonLawful := by
  cases h with
  | scalar h => exact scalar_codec h
  | nullable h => exact (scalar_codec h).option (scalar_neverNull h)
  | array h => exact (scalar_codec h).vec (scalar_element h)
  | arrayNullable h =>
    exact ((scalar_codec h).option (scalar_neverNull h)).vec (scalar_element h)
  | nullableArray h =>
    exact ((scalar_codec h).vec (scalar_element h)).option vec_neverNull
  | nullableArrayNullable h =>
    exact (((scalar_codec h).option (scalar_neverNull h)).vec
      (scalar_element h)).option vec_neverNull

end SqlType

end Stdx.Postgresql
