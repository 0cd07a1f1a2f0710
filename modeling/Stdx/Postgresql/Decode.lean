import Stdx.Foundation.Utf8
import Stdx.Ipnetwork.Network
import Stdx.Postgresql.CopyOut
import Stdx.Postgresql.Oid
import Stdx.Time.CivilTime
import Stdx.Uuid.V7

/-!
# Decoding of values

The trait `FromSql` of `postgresql/decode.rs` with its implementations.  The trait is a
structure of its functions, a floating point number is its bits, and the serde
implementations of a type are a parameter.  The sums of the times fit their `i64` and `i128`.
-/

namespace Stdx.Postgresql

open Stdx.Foundation Stdx.Time

def PG_EPOCH_UNIX : Int := 946684800

def MICROS_PER_DAY : Int := 86400000000

/-- `i64::from_be_bytes` of the eight octets from `pos` on. -/
def readI64 (buf : Bytes) (pos : Nat) : Int :=
  let value := beValue ((buf.drop pos).take 8)
  if value < 2 ^ 63 then value else value - 2 ^ 64

structure Interval where
  months : Int32
  days : Int32
  micros : Int64
  deriving DecidableEq

/-- The serde implementations of a type: what its serializer appends, with the error that
ended it, and its parser. -/
structure JsonCodec (J : Type) where
  toWriter : J → Bytes × Option String
  fromSlice : Bytes → Except String J

structure FromSql (α : Type) where
  fromSql : Oid → Bytes → Outcome Error α
  fromSqlZoned : Oid → Bytes → TimeZone → Outcome Error α
  fromSqlNull : Outcome Error α
  accepts : Oid → Bool

namespace FromSql

def provided {α : Type} (fromSql : Oid → Bytes → Outcome Error α) (accepts : Oid → Bool) :
    FromSql α where
  fromSql := fromSql
  fromSqlZoned oid buf _ := fromSql oid buf
  fromSqlNull := .err (.unexpectedNull "")
  accepts := accepts

def need (buf : Bytes) (n : Nat) (what : String) : Outcome Error Unit :=
  if buf.length < n then
    .err (.decode (what ++ ": buffer of " ++ toString buf.length ++ " bytes is too short"))
  else .ok ()

/-! ## Slices, which panic out of range -/

/-- `read` on the octets `buf[pos..pos + n]`. -/
def readSlice {α : Type} (read : Bytes → Nat → α) (n : Nat) (buf : Bytes) (pos : Nat) :
    Outcome Error α :=
  if pos + n ≤ buf.length then .ok (read buf pos) else .panic

def i32At : Bytes → Nat → Outcome Error Int := readSlice readI32 4

def i64At : Bytes → Nat → Outcome Error Int := readSlice readI64 8

def u32At : Bytes → Nat → Outcome Error UInt32 :=
  readSlice (fun buf pos => UInt32.ofNat (beValue ((buf.drop pos).take 4))) 4

def u64At : Bytes → Nat → Outcome Error UInt64 :=
  readSlice (fun buf pos => UInt64.ofNat (beValue ((buf.drop pos).take 8))) 8

def u8At : Bytes → Nat → Outcome Error UInt8 := readSlice (fun buf pos => buf.getD pos 0) 1

/-- `&buf[pos..pos + n]` -/
def octetsAt (buf : Bytes) (pos n : Nat) : Outcome Error Bytes :=
  readSlice (fun buf pos => (buf.drop pos).take n) n buf pos

/-- `&buf[pos..]` -/
def octetsFrom (buf : Bytes) (pos : Nat) : Outcome Error Bytes :=
  readSlice (fun buf pos => buf.drop pos) 0 buf pos

/-! ## Numbers and texts -/

def numberImpl {α : Type} (n : Nat) (name : String) (oid : Oid)
    (read : Bytes → Nat → Outcome Error α) : FromSql α :=
  .provided (fun _ buf => do need buf n name; read buf 0) (· == oid)

def int2 : FromSql Int16 :=
  numberImpl 2 "int2" INT2OID (readSlice (fun buf _ => .ofInt (readI16 buf)) 2)

def int4 : FromSql Int32 :=
  numberImpl 4 "int4" INT4OID (readSlice (fun buf pos => .ofInt (readI32 buf pos)) 4)

def int8 : FromSql Int64 :=
  numberImpl 8 "int8" INT8OID (readSlice (fun buf pos => .ofInt (readI64 buf pos)) 8)

def float4 : FromSql UInt32 := numberImpl 4 "float4" FLOAT4OID u32At

def float8 : FromSql UInt64 := numberImpl 8 "float8" FLOAT8OID u64At

def bool : FromSql Bool :=
  .provided (fun _ buf => do need buf 1 "bool"; .ok ((← u8At buf 0) != 0)) (· == BOOLOID)

def text : FromSql String :=
  .provided (fun _ buf => match fromUtf8 buf with
    | some value => .ok value
    | none => .err .utf8)
    fun oid => oid == TEXTOID || oid == VARCHAROID || oid == BPCHAROID || oid == NAMEOID

def bytea : FromSql Bytes := .provided (fun _ buf => .ok buf) (· == BYTEAOID)

def uuid : FromSql Uuid :=
  .provided (fun _ buf => if h : buf.length = 16 then .ok ⟨buf, h⟩ else .err .uuid) (· == UUIDOID)

/-! ## Dates and times -/

def liftTime {α : Type} : Except Time.Error α → Outcome Error α
  | .ok value => .ok value
  | .error err => .err (.time err)

def fromPgMicros (micros : Int) : Outcome Error DateTime :=
  liftTime (DateTime.fromUnixNanos (PG_EPOCH_UNIX * 1000000000 + micros * 1000))

def rejectTimestampInfinity (micros : Int) : Outcome Error Unit :=
  if micros = 2 ^ 63 - 1 ∨ micros = -2 ^ 63 then
    .err (.decode "PostgreSQL `infinity` / `-infinity` timestamps are not supported")
  else .ok ()

def rejectDateInfinity (days : Int) : Outcome Error Unit :=
  if days = 2 ^ 31 - 1 ∨ days = -2 ^ 31 then
    .err (.decode "PostgreSQL `infinity` / `-infinity` dates are not supported")
  else .ok ()

def unknownDateTime (oid : Oid) : Outcome Error DateTime :=
  .err (.decode ("cannot decode OID " ++ toString oid ++ " as DateTime"))

def dateTimeFromSql (oid : Oid) (buf : Bytes) : Outcome Error DateTime :=
  if oid = TIMESTAMPTZOID ∨ oid = TIMESTAMPOID then do
    need buf 8 "timestamp"
    let micros ← i64At buf 0
    rejectTimestampInfinity micros
    fromPgMicros micros
  else if oid = DATEOID then do
    need buf 4 "date"
    let days ← i32At buf 0
    rejectDateInfinity days
    liftTime (DateTime.fromUnix (PG_EPOCH_UNIX + days * 86400))
  else if oid = TIMEOID then do
    need buf 8 "time"
    let micros ← i64At buf 0
    if ¬(0 ≤ micros ∧ micros < MICROS_PER_DAY) then
      .err (.decode ("time value " ++ toString micros ++ " is outside a single day"))
    else liftTime (DateTime.fromUnixNanos (micros * 1000))
  else if oid = TIMETZOID then do
    need buf 12 "timetz"
    let micros ← i64At buf 0
    let offset ← i32At buf 8
    if ¬(0 ≤ micros ∧ micros < MICROS_PER_DAY) then
      .err (.decode ("timetz value " ++ toString micros ++ " is outside a single day"))
    else liftTime (DateTime.fromUnixNanos ((micros - offset * 1000000) * 1000))
  else unknownDateTime oid

def civilInZone (naive : DateTime) (zone : TimeZone) : Outcome Error DateTime :=
  let parts := naive.parts
  liftTime (DateTime.fromPartsWith parts.year parts.month parts.day parts.hour parts.minute
    parts.second parts.nanos zone .compatible)

def dateTimeFromSqlZoned (oid : Oid) (buf : Bytes) (zone : TimeZone) : Outcome Error DateTime :=
  if oid = TIMESTAMPTZOID ∨ oid = TIMETZOID then dateTimeFromSql oid buf
  else if oid = TIMESTAMPOID then do
    need buf 8 "timestamp"
    let micros ← i64At buf 0
    rejectTimestampInfinity micros
    civilInZone (← fromPgMicros micros) zone
  else if oid = DATEOID then do
    need buf 4 "date"
    let days ← i32At buf 0
    rejectDateInfinity days
    civilInZone (← liftTime (DateTime.fromUnix (PG_EPOCH_UNIX + days * 86400))) zone
  else if oid = TIMEOID then do
    need buf 8 "time"
    let micros ← i64At buf 0
    -- There is no comparison with the length of a day here.
    civilInZone (← liftTime (DateTime.fromUnixNanos (micros * 1000))) zone
  else unknownDateTime oid

def dateTime : FromSql DateTime where
  fromSql := dateTimeFromSql
  fromSqlZoned := dateTimeFromSqlZoned
  fromSqlNull := .err (.unexpectedNull "")
  accepts oid := oid == TIMESTAMPTZOID || oid == TIMESTAMPOID || oid == DATEOID ||
    oid == TIMEOID || oid == TIMETZOID

/-! ## JSON, networks and intervals -/

section

variable {J : Type} (codec : JsonCodec J)

def parseJson (buf : Bytes) : Outcome Error J :=
  match codec.fromSlice buf with
  | .ok value => .ok value
  | .error message => .err (.json message)

def jsonFromSql (oid : Oid) (buf : Bytes) : Outcome Error J :=
  if oid = JSONBOID then do
    need buf 1 "jsonb"
    let version ← u8At buf 0
    if version ≠ 1 then
      .err (.decode ("unsupported jsonb format version " ++ toString version))
    else parseJson codec (← octetsFrom buf 1)
  else if oid = JSONOID then parseJson codec buf
  else .err (.decode ("cannot decode OID " ++ toString oid ++ " as JSON"))

/-- `serde_json::Value` and `Json<T>`. -/
def json : FromSql J :=
  .provided (jsonFromSql codec) fun oid => oid == JSONOID || oid == JSONBOID

end

def liftNetwork {width : Nat} :
    Option (Ipnetwork.Network width) → Outcome Error (Ipnetwork.Network width)
  | some network => .ok network
  | none => .err .ipNetwork

def inetFromSql (_oid : Oid) (buf : Bytes) : Outcome Error Ipnetwork.IpNetwork := do
  need buf 4 "inet"
  let family ← u8At buf 0
  let bits := (← u8At buf 1).toNat
  let len := (← u8At buf 3).toNat
  need buf (4 + len) "inet"
  let addr ← octetsAt buf 4 len
  if family = 2 then
    if addr.length = 4 then do
      .ok (.v4 (← liftNetwork (Ipnetwork.Network.new (BitVec.ofNat 32 (beValue addr)) bits)))
    else .err (.decode "invalid IPv4 length")
  else if family = 3 then
    if addr.length = 16 then do
      .ok (.v6 (← liftNetwork (Ipnetwork.Network.new (BitVec.ofNat 128 (beValue addr)) bits)))
    else .err (.decode "invalid IPv6 length")
  else .err (.decode ("unknown inet family " ++ toString family))

def inet : FromSql Ipnetwork.IpNetwork :=
  .provided inetFromSql fun oid => oid == INETOID || oid == CIDROID

def interval : FromSql Interval :=
  .provided (fun _ buf => do
    need buf 16 "interval"
    let micros ← i64At buf 0
    let days ← i32At buf 8
    let months ← i32At buf 12
    .ok ⟨.ofInt months, .ofInt days, .ofInt micros⟩) (· == INTERVALOID)

/-! ## Options and arrays -/

def mapSome {α : Type} : Outcome Error α → Outcome Error (Option α)
  | .ok value => .ok (some value)
  | .err err => .err err
  | .panic => .panic

/-- What `decode_array` reads before it sizes its vector: the type of the elements and their
count, or nothing for an array without dimensions. -/
def arrayHeader (accepts : Oid → Bool) (buf : Bytes) : Outcome Error (Option (Oid × Nat)) := do
  need buf 12 "array"
  let ndim ← i32At buf 0
  let elementOid ← u32At buf 8
  if ndim = 0 then .ok none
  else if ndim ≠ 1 then .err (.decode "only one-dimensional arrays are supported")
  else do
    need buf 20 "array"
    let rawCount ← i32At buf 12
    if rawCount < 0 then .err (.decode "array has a negative element count")
    else if rawCount.toNat > (buf.length - 20) / 4 then
      .err (.decode ("array claims " ++ toString rawCount.toNat ++
        " elements but the payload holds at most " ++ toString ((buf.length - 20) / 4)))
    else if !accepts elementOid then
      .err (.decode ("array element type OID " ++ toString elementOid ++
        " cannot be decoded as the requested type"))
    else .ok (some (elementOid, rawCount.toNat))

section

variable {α : Type} (T : FromSql α)

def option : FromSql (Option α) where
  fromSql oid buf := mapSome (T.fromSql oid buf)
  fromSqlZoned oid buf zone := mapSome (T.fromSqlZoned oid buf zone)
  fromSqlNull := .ok none
  accepts := T.accepts

def decodeElements (elementOid : Oid) (zone : TimeZone) (buf : Bytes) :
    Nat → Nat → Outcome Error (List α)
  | 0, _ => .ok []
  | count + 1, pos => do
      need (← octetsFrom buf pos) 4 "array element"
      let rawLen ← i32At buf pos
      let pos := pos + 4
      if rawLen = -1 then do
        let value ← T.fromSqlNull
        let values ← decodeElements elementOid zone buf count pos
        .ok (value :: values)
      else if rawLen < 0 then
        .err (.decode ("array element has an invalid length " ++ toString rawLen))
      else do
        let len := rawLen.toNat
        need (← octetsFrom buf pos) len "array element"
        let value ← T.fromSqlZoned elementOid (← octetsAt buf pos len) zone
        let values ← decodeElements elementOid zone buf count (pos + len)
        .ok (value :: values)

def decodeArray (buf : Bytes) (zone : TimeZone) : Outcome Error (List α) := do
  match ← arrayHeader T.accepts buf with
  | none => .ok []
  | some (elementOid, count) => decodeElements T elementOid zone buf count 20

def vec : FromSql (List α) where
  fromSql _ buf := decodeArray T buf .utc
  fromSqlZoned _ buf zone := decodeArray T buf zone
  fromSqlNull := .err (.unexpectedNull "")
  accepts oid := (arrayElement oid).any T.accepts

end

end FromSql

/-! ## The supported types -/

inductive SqlType : Type 1 where
  | int2
  | int4
  | int8
  | float4
  | float8
  | bool
  | text
  | bytea
  | uuid
  | dateTime
  | json (J : Type) (codec : JsonCodec J)
  | inet
  | interval
  | option (t : SqlType)
  | vec (t : SqlType)

namespace SqlType

def Value : SqlType → Type
  | int2 => Int16
  | int4 => Int32
  | int8 => Int64
  | float4 => UInt32
  | float8 => UInt64
  | bool => Bool
  | text => String
  | bytea => Bytes
  | uuid => Uuid
  | dateTime => DateTime
  | json J _ => J
  | inet => Ipnetwork.IpNetwork
  | interval => Interval
  | option t => Option t.Value
  | vec t => List t.Value

def impl : (t : SqlType) → FromSql t.Value
  | int2 => FromSql.int2
  | int4 => FromSql.int4
  | int8 => FromSql.int8
  | float4 => FromSql.float4
  | float8 => FromSql.float8
  | bool => FromSql.bool
  | text => FromSql.text
  | bytea => FromSql.bytea
  | uuid => FromSql.uuid
  | dateTime => FromSql.dateTime
  | json _ codec => FromSql.json codec
  | inet => FromSql.inet
  | interval => FromSql.interval
  | option t => FromSql.option t.impl
  | vec t => FromSql.vec t.impl

end SqlType

end Stdx.Postgresql
