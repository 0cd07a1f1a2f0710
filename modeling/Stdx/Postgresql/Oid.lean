import Stdx.Foundation.Octets

/-!
# Object identifiers of types

The identifiers of `postgresql_protocol/oid.rs` and the element types of the array types.
-/

namespace Stdx.Postgresql

abbrev Oid := UInt32

def BOOLOID : Oid := 16
def BYTEAOID : Oid := 17
def NAMEOID : Oid := 19
def INT8OID : Oid := 20
def INT2OID : Oid := 21
def INT4OID : Oid := 23
def TEXTOID : Oid := 25
def JSONOID : Oid := 114
def CIDROID : Oid := 650
def FLOAT4OID : Oid := 700
def FLOAT8OID : Oid := 701
def INETOID : Oid := 869
def BPCHAROID : Oid := 1042
def VARCHAROID : Oid := 1043
def DATEOID : Oid := 1082
def TIMEOID : Oid := 1083
def TIMESTAMPOID : Oid := 1114
def TIMESTAMPTZOID : Oid := 1184
def INTERVALOID : Oid := 1186
def TIMETZOID : Oid := 1266
def NUMERICOID : Oid := 1700
def UUIDOID : Oid := 2950
def JSONBOID : Oid := 3802

def JSON_ARRAY_OID : Oid := 199
def CIDR_ARRAY_OID : Oid := 651
def BOOL_ARRAY_OID : Oid := 1000
def BYTEA_ARRAY_OID : Oid := 1001
def NAME_ARRAY_OID : Oid := 1003
def INT2_ARRAY_OID : Oid := 1005
def INT4_ARRAY_OID : Oid := 1007
def TEXT_ARRAY_OID : Oid := 1009
def BPCHAR_ARRAY_OID : Oid := 1014
def VARCHAR_ARRAY_OID : Oid := 1015
def INT8_ARRAY_OID : Oid := 1016
def FLOAT4_ARRAY_OID : Oid := 1021
def FLOAT8_ARRAY_OID : Oid := 1022
def INET_ARRAY_OID : Oid := 1041
def TIMESTAMP_ARRAY_OID : Oid := 1115
def DATE_ARRAY_OID : Oid := 1182
def TIME_ARRAY_OID : Oid := 1183
def TIMESTAMPTZ_ARRAY_OID : Oid := 1185
def INTERVAL_ARRAY_OID : Oid := 1187
def NUMERIC_ARRAY_OID : Oid := 1231
def TIMETZ_ARRAY_OID : Oid := 1270
def UUID_ARRAY_OID : Oid := 2951
def JSONB_ARRAY_OID : Oid := 3807

def arrayTypes : List (Oid × Oid) :=
  [(INT2_ARRAY_OID, INT2OID), (INT4_ARRAY_OID, INT4OID), (INT8_ARRAY_OID, INT8OID),
    (FLOAT4_ARRAY_OID, FLOAT4OID), (FLOAT8_ARRAY_OID, FLOAT8OID), (BOOL_ARRAY_OID, BOOLOID),
    (TEXT_ARRAY_OID, TEXTOID), (NAME_ARRAY_OID, NAMEOID), (VARCHAR_ARRAY_OID, VARCHAROID),
    (BPCHAR_ARRAY_OID, BPCHAROID), (BYTEA_ARRAY_OID, BYTEAOID), (UUID_ARRAY_OID, UUIDOID),
    (JSON_ARRAY_OID, JSONOID), (JSONB_ARRAY_OID, JSONBOID), (INET_ARRAY_OID, INETOID),
    (CIDR_ARRAY_OID, CIDROID), (DATE_ARRAY_OID, DATEOID), (TIME_ARRAY_OID, TIMEOID),
    (TIMETZ_ARRAY_OID, TIMETZOID), (TIMESTAMPTZ_ARRAY_OID, TIMESTAMPTZOID),
    (TIMESTAMP_ARRAY_OID, TIMESTAMPOID), (INTERVAL_ARRAY_OID, INTERVALOID),
    (NUMERIC_ARRAY_OID, NUMERICOID)]

def arrayElement (oid : Oid) : Option Oid := arrayTypes.lookup oid

end Stdx.Postgresql
