import Stdx.Postgresql.CopyGrammar

/-!
# Frontend messages

The encoders of `frontend.rs` append to a buffer of the caller.  `begin` leaves a gap for the
length, which `finish` patches.  A string is written as it is, with a NUL behind it; only
`startup` looks for a NUL inside.
-/

namespace Stdx.Postgresql

open Stdx.Foundation

namespace Frontend

def MAX_VALUE_COUNT : Nat := 65535

inductive Format where
  | text
  | binary
  deriving DecidableEq, Repr

def Format.code : Format → Nat
  | .text => 0
  | .binary => 1

def count16 (count : Nat) : Except Error Nat :=
  if count < 2 ^ 16 then .ok count
  else .error (.encode s!"too many values: {count} (max {MAX_VALUE_COUNT})")

def length32 (len : Nat) : Except Error Nat :=
  if len < 2 ^ 31 then .ok len
  else .error (.encode s!"value is too large: {len} bytes")

def cstr (s : Bytes) : Bytes :=
  s ++ [0x00]

def begin (buf : Bytes) (tag : UInt8) : Bytes × Nat :=
  let buf := buf ++ [tag]
  (buf ++ i32Octets 0, buf.length)

def finish (buf : Bytes) (lenPos : Nat) : Bytes × Except Error Unit :=
  match length32 (buf.length - lenPos) with
  | .error err => (buf, .error err)
  | .ok len => (buf.take lenPos ++ i32Octets len ++ buf.drop (lenPos + 4), .ok ())

def tagged (buf : Bytes) (tag : UInt8) (body : Bytes) : Bytes × Except Error Unit :=
  let started := begin buf tag
  finish (started.1 ++ body) started.2

def startup (buf : Bytes) (params : List (Bytes × Bytes)) : Bytes × Except Error Unit :=
  if params.any fun param => param.1.contains 0x00 || param.2.contains 0x00 then
    (buf, .error (.encode "startup parameters must not contain a NUL byte"))
  else
    let lenPos := buf.length
    let buf := buf ++ i32Octets 0 ++ i32Octets 196608
    finish (buf ++ (params.flatMap fun param => cstr param.1 ++ cstr param.2) ++ [0x00]) lenPos

def password (buf text : Bytes) : Bytes × Except Error Unit :=
  tagged buf 0x70 (cstr text)

def saslInitialResponse (buf mechanism data : Bytes) : Bytes × Except Error Unit :=
  let started := begin buf 0x70
  let buf := started.1 ++ cstr mechanism
  match length32 data.length with
  | .error err => (buf, .error err)
  | .ok len => finish (buf ++ i32Octets len ++ data) started.2

def query (buf sql : Bytes) : Bytes × Except Error Unit :=
  tagged buf 0x51 (cstr sql)

def parse (buf name sql : Bytes) (paramOids : List UInt32) : Bytes × Except Error Unit :=
  match count16 paramOids.length with
  | .error err => (buf, .error err)
  | .ok count =>
    tagged buf 0x50 (cstr name ++ cstr sql ++ u16Octets count ++
      paramOids.flatMap fun oid => fixedOctets 4 oid.toNat)

def bindStart (buf portal statement : Bytes) (paramCount : Nat) :
    Bytes × Except Error Nat :=
  match count16 paramCount with
  | .error err => (buf, .error err)
  | .ok count =>
    let started := begin buf 0x42
    (started.1 ++ (cstr portal ++ cstr statement ++ u16Octets count ++
      (List.replicate paramCount (u16Octets Format.binary.code)).flatten ++ u16Octets count),
      .ok started.2)

def writeParam (buf : Bytes) (value : Option Bytes) : Bytes × Except Error Unit :=
  match value with
  | none => (buf ++ i32Octets (-1), .ok ())
  | some v =>
    match length32 v.length with
    | .error err => (buf, .error err)
    | .ok len => (buf ++ i32Octets len ++ v, .ok ())

def bindFinish (buf : Bytes) (resultFormat : Format) (lenPos : Nat) : Bytes × Except Error Unit :=
  finish (buf ++ (u16Octets 1 ++ u16Octets resultFormat.code)) lenPos

def describe (buf : Bytes) (kind : UInt8) (name : Bytes) : Bytes × Except Error Unit :=
  tagged buf 0x44 (kind :: cstr name)

def execute (buf portal : Bytes) (maxRows : Int32) : Bytes × Except Error Unit :=
  tagged buf 0x45 (cstr portal ++ i32Octets maxRows.toInt)

def sync (buf : Bytes) : Bytes × Except Error Unit :=
  tagged buf 0x53 []

def close (buf : Bytes) (kind : UInt8) (name : Bytes) : Bytes × Except Error Unit :=
  tagged buf 0x43 (kind :: cstr name)

def copyData (buf data : Bytes) : Bytes × Except Error Unit :=
  tagged buf 0x64 data

def copyFail (buf message : Bytes) : Bytes × Except Error Unit :=
  tagged buf 0x66 (cstr message)

def writeParams (buf : Bytes) : List (Option Bytes) → Bytes × Except Error Unit
  | [] => (buf, .ok ())
  | value :: values =>
    match writeParam buf value with
    | (buf, .error err) => (buf, .error err)
    | (buf, .ok ()) => writeParams buf values

def bind (buf portal statement : Bytes) (paramCount : Nat) (values : List (Option Bytes))
    (resultFormat : Format) : Bytes × Except Error Unit :=
  match bindStart buf portal statement paramCount with
  | (buf, .error err) => (buf, .error err)
  | (buf, .ok lenPos) =>
    match writeParams buf values with
    | (buf, .error err) => (buf, .error err)
    | (buf, .ok ()) => bindFinish buf resultFormat lenPos

/-! ## Calls -/

inductive Call where
  | query (sql : Bytes)
  | parse (name sql : Bytes) (paramOids : List UInt32)
  | bind (portal statement : Bytes) (paramCount : Nat) (values : List (Option Bytes))
      (resultFormat : Format)
  | describe (kind : UInt8) (name : Bytes)
  | execute (portal : Bytes) (maxRows : Int32)
  | close (kind : UInt8) (name : Bytes)
  | password (text : Bytes)
  | saslInitialResponse (mechanism data : Bytes)
  | copyData (data : Bytes)
  | copyFail (message : Bytes)
  | sync

def Call.encode (buf : Bytes) : Call → Bytes × Except Error Unit
  | .query sql => Frontend.query buf sql
  | .parse name sql paramOids => Frontend.parse buf name sql paramOids
  | .bind portal statement paramCount values resultFormat =>
    Frontend.bind buf portal statement paramCount values resultFormat
  | .describe kind name => Frontend.describe buf kind name
  | .execute portal maxRows => Frontend.execute buf portal maxRows
  | .close kind name => Frontend.close buf kind name
  | .password text => Frontend.password buf text
  | .saslInitialResponse mechanism data => Frontend.saslInitialResponse buf mechanism data
  | .copyData data => Frontend.copyData buf data
  | .copyFail message => Frontend.copyFail buf message
  | .sync => Frontend.sync buf

/-- The buffer behind some calls, whether they succeed or not. -/
def encodeAll (buf : Bytes) : List Call → Bytes
  | [] => buf
  | call :: calls => encodeAll (call.encode buf).1 calls

/-! ## Frames -/

def Call.tag : Call → UInt8
  | .query _ => 0x51
  | .parse _ _ _ => 0x50
  | .bind _ _ _ _ _ => 0x42
  | .describe _ _ => 0x44
  | .execute _ _ => 0x45
  | .close _ _ => 0x43
  | .password _ => 0x70
  | .saslInitialResponse _ _ => 0x70
  | .copyData _ => 0x64
  | .copyFail _ => 0x66
  | .sync => 0x53

def Call.body : Call → Bytes
  | .query sql => cstr sql
  | .parse name sql paramOids =>
    cstr name ++ cstr sql ++ u16Octets paramOids.length ++
      paramOids.flatMap fun oid => fixedOctets 4 oid.toNat
  | .bind portal statement paramCount values resultFormat =>
    cstr portal ++ cstr statement ++ u16Octets paramCount ++
      (List.replicate paramCount (u16Octets Format.binary.code)).flatten ++
      u16Octets paramCount ++ fieldsOctets values ++
      (u16Octets 1 ++ u16Octets resultFormat.code)
  | .describe kind name => kind :: cstr name
  | .execute portal maxRows => cstr portal ++ i32Octets maxRows.toInt
  | .close kind name => kind :: cstr name
  | .password text => cstr text
  | .saslInitialResponse mechanism data => cstr mechanism ++ i32Octets data.length ++ data
  | .copyData data => data
  | .copyFail message => cstr message
  | .sync => []

/-- The counts and lengths fit their fields. -/
def Call.Fits (call : Call) : Prop :=
  4 + call.body.length < 2 ^ 31 ∧
    match call with
    | .parse _ _ paramOids => paramOids.length < 2 ^ 16
    | .bind _ _ paramCount _ _ => paramCount < 2 ^ 16
    | _ => True

def frame (tag : UInt8) (body : Bytes) : Bytes :=
  tag :: i32Octets (4 + body.length : Nat) ++ body

theorem finish_begin (buf : Bytes) (tag : UInt8) (body : Bytes) :
    (4 + body.length < 2 ^ 31 ∧
        finish ((begin buf tag).1 ++ body) (begin buf tag).2 = (buf ++ frame tag body, .ok ())) ∨
      (¬4 + body.length < 2 ^ 31 ∧
        ∃ err, (finish ((begin buf tag).1 ++ body) (begin buf tag).2).2 = .error err) := by
  have hlength : ((begin buf tag).1 ++ body).length - (begin buf tag).2 = 4 + body.length := by
    simp only [begin, List.length_append, i32Octets_length]
    omega
  unfold finish
  rw [hlength]
  by_cases hfits : 4 + body.length < 2 ^ 31
  · rw [length32, if_pos hfits]
    refine .inl ⟨hfits, ?_⟩
    simp only [begin, Prod.mk.injEq, and_true]
    rw [List.append_assoc (buf ++ [tag]), List.take_left, ← List.append_assoc,
      List.drop_left' (by rw [List.length_append, i32Octets_length])]
    simp [frame]
  · rw [length32, if_neg hfits]
    exact .inr ⟨hfits, _, rfl⟩

theorem writeParams_cases (buf : Bytes) (values : List (Option Bytes)) :
    (writeParams buf values = (buf ++ fieldsOctets values, .ok ())) ∨
      (∃ err, (writeParams buf values).2 = .error err) ∧
        2 ^ 31 ≤ (fieldsOctets values).length := by
  induction values generalizing buf with
  | nil => exact .inl (by simp [writeParams])
  | cons value values ih =>
    cases value with
    | none =>
      rw [writeParams, writeParam, fieldsOctets_cons, fieldOctets]
      rcases ih (buf ++ i32Octets (-1)) with hok | ⟨herr, hlength⟩
      · exact .inl (by simp [hok])
      · exact .inr ⟨herr, by rw [List.length_append]; omega⟩
    | some v =>
      rw [writeParams, writeParam, length32, fieldsOctets_cons, fieldOctets]
      by_cases hfits : v.length < 2 ^ 31
      · rw [if_pos hfits]
        rcases ih (buf ++ i32Octets v.length ++ v) with hok | ⟨herr, hlength⟩
        · refine .inl (hok.trans ?_)
          simp only [List.append_assoc]
        · exact .inr ⟨herr, by rw [List.length_append]; omega⟩
      · rw [if_neg hfits]
        refine .inr ⟨⟨_, rfl⟩, ?_⟩
        rw [List.length_append, List.length_append]
        omega

theorem encode_tagged {buf : Bytes} {call : Call}
    (hencode : call.encode buf = tagged buf call.tag call.body)
    (hfits : call.Fits ↔ 4 + call.body.length < 2 ^ 31) :
    (call.Fits ∧ call.encode buf = (buf ++ frame call.tag call.body, .ok ())) ∨
      (¬call.Fits ∧ ∃ err, (call.encode buf).2 = .error err) := by
  rw [hencode, hfits]
  exact finish_begin buf call.tag call.body

theorem encode_cases (buf : Bytes) (call : Call) :
    (call.Fits ∧ call.encode buf = (buf ++ frame call.tag call.body, .ok ())) ∨
      (¬call.Fits ∧ ∃ err, (call.encode buf).2 = .error err) := by
  have htagged := finish_begin buf call.tag call.body
  cases call with
  | parse name sql paramOids =>
    by_cases hcount : paramOids.length < 2 ^ 16
    · simp only [Call.encode, parse, count16, if_pos hcount]
      rcases htagged with ⟨hlength, hok⟩ | ⟨hlength, herr⟩
      · exact .inl ⟨⟨hlength, hcount⟩, hok⟩
      · exact .inr ⟨fun h => hlength h.1, herr⟩
    · simp only [Call.encode, parse, count16, if_neg hcount]
      exact .inr ⟨fun h => hcount h.2, _, rfl⟩
  | bind portal statement paramCount values resultFormat =>
    by_cases hcount : paramCount < 2 ^ 16
    · simp only [Call.encode, bind, bindStart, count16, if_pos hcount]
      rcases writeParams_cases ((begin buf 0x42).1 ++ (cstr portal ++ cstr statement ++
          u16Octets paramCount ++
          (List.replicate paramCount (u16Octets Format.binary.code)).flatten ++
          u16Octets paramCount)) values with hok | ⟨⟨err, herr⟩, hlarge⟩
      · rw [hok]
        simp only [bindFinish, List.append_assoc]
        simp only [Call.tag, Call.body, List.append_assoc] at htagged
        rcases htagged with ⟨hlength, hok⟩ | ⟨hlength, herr⟩
        · refine .inl ⟨⟨?_, hcount⟩, ?_⟩
          · simpa only [Call.body, List.append_assoc] using hlength
          · simpa only [Call.tag, Call.body, List.append_assoc] using hok
        · refine .inr ⟨fun h => hlength ?_, herr⟩
          simpa only [Call.body, List.append_assoc] using h.1
      · refine .inr ⟨fun h => ?_, err, ?_⟩
        · have hlength := h.1
          simp only [Call.body, List.length_append] at hlength
          omega
        · rcases hwrite : writeParams _ values with ⟨written, result⟩
          rw [hwrite] at herr
          simp only at herr
          rw [herr]
    · simp only [Call.encode, bind, bindStart, count16, if_neg hcount]
      exact .inr ⟨fun h => hcount h.2, _, rfl⟩
  | saslInitialResponse mechanism data =>
    simp only [Call.encode, saslInitialResponse, length32]
    by_cases hdata : data.length < 2 ^ 31
    · rw [if_pos hdata]
      simp only [Call.tag, Call.body, ← List.append_assoc] at htagged
      rcases htagged with ⟨hlength, hok⟩ | ⟨hlength, herr⟩
      · refine .inl ⟨⟨?_, trivial⟩, ?_⟩
        · simpa only [Call.body] using hlength
        · simpa only [Call.tag, Call.body] using hok
      · refine .inr ⟨fun h => hlength ?_, herr⟩
        simpa only [Call.body] using h.1
    · rw [if_neg hdata]
      refine .inr ⟨fun h => ?_, _, rfl⟩
      have hlength := h.1
      simp only [Call.body, List.length_append] at hlength
      omega
  | query sql => exact encode_tagged rfl (and_iff_left trivial)
  | describe kind name => exact encode_tagged rfl (and_iff_left trivial)
  | execute portal maxRows => exact encode_tagged rfl (and_iff_left trivial)
  | close kind name => exact encode_tagged rfl (and_iff_left trivial)
  | password text => exact encode_tagged rfl (and_iff_left trivial)
  | copyData data => exact encode_tagged rfl (and_iff_left trivial)
  | copyFail message => exact encode_tagged rfl (and_iff_left trivial)
  | sync => exact encode_tagged rfl (and_iff_left trivial)

end Frontend

end Stdx.Postgresql
