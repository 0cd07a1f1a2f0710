import Stdx.Postgresql.CopyGrammar
import Stdx.Postgresql.Decode

/-!
# Encoding of values

The implementations of `ToSql` and `StaticType` in `postgresql/encode.rs`, and
`encode_params` of `connection.rs`.  The identifier of a value and that of its type are the
same for every supported type.
-/

namespace Stdx.Postgresql

open Stdx.Foundation Stdx.Time

def arrayOid (elem : Oid) : Option Oid :=
  (arrayTypes.find? fun entry => entry.2 == elem).map Prod.fst

structure ToSql (α : Type) where
  encode : α → Encoding
  oid : Oid

namespace ToSql

/-- `buf.put_…(…); Ok(IsNull::NotNull)` -/
def written (octets : Bytes) : Encoding := ⟨octets, .ok .notNull⟩

def i16Octets (value : Int) : Bytes := fixedOctets 2 (value % 2 ^ 16).toNat

def i64Octets (value : Int) : Bytes := fixedOctets 8 (value % 2 ^ 64).toNat

def int2 : ToSql Int16 := ⟨fun value => written (i16Octets value.toInt), INT2OID⟩

def int4 : ToSql Int32 := ⟨fun value => written (i32Octets value.toInt), INT4OID⟩

def int8 : ToSql Int64 := ⟨fun value => written (i64Octets value.toInt), INT8OID⟩

def float4 : ToSql UInt32 := ⟨fun value => written (fixedOctets 4 value.toNat), FLOAT4OID⟩

def float8 : ToSql UInt64 := ⟨fun value => written (fixedOctets 8 value.toNat), FLOAT8OID⟩

def bool : ToSql Bool := ⟨fun value => written [if value then 1 else 0], BOOLOID⟩

def text : ToSql String := ⟨fun value => written (utf8 value), TEXTOID⟩

def bytea : ToSql Bytes := ⟨written, BYTEAOID⟩

def uuid : ToSql Uuid := ⟨fun value => written value.octets, UUIDOID⟩

/-! ## Dates and times -/

def pgEpoch : Except Time.Error DateTime := DateTime.fromUnix PG_EPOCH_UNIX

def signedDurationSince (dt other : DateTime) : Int × Nat :=
  let seconds := dt.secs - other.secs
  let nanos : Int := dt.nanos - other.nanos
  if nanos < 0 then (seconds - 1, (nanos + 1000000000).toNat) else (seconds, nanos.toNat)

def inI64 (value : Int) : Bool := decide (-2 ^ 63 ≤ value ∧ value < 2 ^ 63)

def encodeDateTime (dt : DateTime) : Encoding :=
  match pgEpoch with
  | .error err => ⟨[], .error (.time err)⟩
  | .ok epoch =>
    let (secs, nanos) := signedDurationSince dt epoch
    let micros := secs * 1000000 + (nanos / 1000 : Nat)
    if inI64 (secs * 1000000) && inI64 micros then written (i64Octets micros)
    else ⟨[], .error (.encode "timestamp is out of range for timestamptz")⟩

def dateTime : ToSql DateTime := ⟨encodeDateTime, TIMESTAMPTZOID⟩

/-! ## JSON, networks and intervals -/

def json {J : Type} (codec : JsonCodec J) : ToSql J where
  encode value :=
    match codec.toWriter value with
    | (octets, some message) => ⟨1 :: octets, .error (.json message)⟩
    | (octets, none) => written (1 :: octets)
  oid := JSONBOID

def inet : ToSql Ipnetwork.IpNetwork where
  encode
    | .v4 net => written ([2, UInt8.ofNat net.prefixLen, 0, 4] ++ fixedOctets 4 net.addr.toNat)
    | .v6 net => written ([3, UInt8.ofNat net.prefixLen, 0, 16] ++ fixedOctets 16 net.addr.toNat)
  oid := INETOID

def interval : ToSql Interval where
  encode value := written (i64Octets value.micros.toInt ++ i32Octets value.days.toInt ++
    i32Octets value.months.toInt)
  oid := INTERVALOID

/-! ## Options and arrays -/

section

variable {α : Type} (T : ToSql α)

def option : ToSql (Option α) where
  encode
    | some value => T.encode value
    | none => ⟨[], .ok .null⟩
  oid := T.oid

def vec : ToSql (List α) where
  encode values := encodeArray (values.map T.encode) T.oid.toNat
  oid := (arrayOid T.oid).getD 0

end

end ToSql

namespace SqlType

def toSql : (t : SqlType) → ToSql t.Value
  | int2 => ToSql.int2
  | int4 => ToSql.int4
  | int8 => ToSql.int8
  | float4 => ToSql.float4
  | float8 => ToSql.float8
  | bool => ToSql.bool
  | text => ToSql.text
  | bytea => ToSql.bytea
  | uuid => ToSql.uuid
  | dateTime => ToSql.dateTime
  | json _ codec => ToSql.json codec
  | inet => ToSql.inet
  | interval => ToSql.interval
  | option t => ToSql.option t.toSql
  | vec t => ToSql.vec t.toSql

end SqlType

/-! ## Parameters -/

/-- `&dyn ToSql` -/
structure Param where
  type : SqlType
  value : type.Value

def Param.encode (param : Param) : Encoding := param.type.toSql.encode param.value

def Param.oid (param : Param) : Oid := param.type.toSql.oid

structure EncodedParams where
  oids : List Oid
  values : Bytes
  deriving DecidableEq

def encodeParams : List Param → Except Error EncodedParams
  | [] => .ok ⟨[], []⟩
  | param :: params =>
    match framed "parameter is larger than 2 GiB" param.encode with
    | (_, .error err) => .error err
    | (octets, .ok _) =>
      match encodeParams params with
      | .error err => .error err
      | .ok rest => .ok ⟨param.oid :: rest.oids, octets ++ rest.values⟩

end Stdx.Postgresql
